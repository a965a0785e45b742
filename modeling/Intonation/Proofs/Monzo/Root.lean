import Intonation.Proofs.Literal.RatioPower
import Intonation.Proofs.Monzo.Rational
import Intonation.Proofs.Monzo.Temperament
import Intonation.Proofs.Ratio.Root

/-!
# Rational powers of ratios

A rational power of a ratio scales the exponents of the tracked primes and raises the residual.
When the ratio has the power, so have its tracked part and its residual, and the power is found.
When it has not, one of two things gives that away: an exponent that is not whole, or a residual
without the power, whose logarithm becomes the real correction.

The correction is taken in doubles. A residual whose terms round to one double, such as
`1000000000000000009/1000000000000000003`, has the logarithm zero there, and its irrational root
passes for the ratio that is left without it.

## Main definitions

* `Monzo.Discerned`: a residual with the power, or with a correction that does not vanish
* `Monzo.PowerOf`: the power of a factored ratio

## Main statements

* `PowerOf.of_powRatio`, `PowerOf.of_ofTemperament`: the two ways to take a power
* `PowerOf.pow_ratio_iff`: a power that passes for a ratio is one unless a correction vanished
* `PowerOf.eq_of_pow_eq`: a power that is a ratio is found
* `root_of_ratio`: the same of both ways
-/

namespace Intonation.Monzo
open Double Intonation.Prime

variable {s t : Settings} {a e r residual : ℚ} {count : Nat} {ns : List Int} {m base : Monzo}
  {v : Value}

/-- A residual that has the power, or whose logarithm does not vanish in doubles. -/
def Discerned (residual e : ℚ) : Prop :=
  Ratio.pow? residual e = none →
    ∀ x, ofRat? e = some x → ¬ 1200 * log2Ratio residual * x == 0

/-- The power of a factored ratio: scaled exponents, and the power of the residual or else its
logarithm as the real correction. -/
structure PowerOf (ns : List Int) (residual e : ℚ) (m : Monzo) : Prop where
  time : m.time = 0
  exps : m.exps = (wholes ns).map (· * e)
  rest : (Ratio.pow? residual e = some m.residual ∧ m.cents == 0) ∨
    (Ratio.pow? residual e = none ∧ m.residual = 1 ∧
      ∃ x, ofRat? e = some x ∧ Alike m.cents (1200 * log2Ratio residual * x))

/-! ## Taking powers -/

theorem parts_of_ofRatioOver (h : ofRatioOver s count a = .ok base) :
    base = { exps := wholes (split (table.take count) a).1
             residual := (split (table.take count) a).2 } :=
  (checked_eq_ok_iff.mp (ofRatioOver_eq_ok_iff.mp h).2).2

theorem PowerOf.of_powRatio (ha : 0 < a) (hden : e.den < s.maxPowDenominator)
    (hbase : ofRatioOver t count a = .ok base) (h : base.powRatio s e = .ok v) :
    ∃ m, v = .exact m ∧
      PowerOf (split (table.take count) a).1 (split (table.take count) a).2 e m := by
  have hpos : 0 < (split (table.take count) a).2 := residual_pos ha
  obtain rfl := parts_of_ofRatioOver hbase
  obtain ⟨x, hx, hfin, ⟨q, m, hq, rfl, hm⟩ | ⟨hnone, -, m, rfl, hm⟩ | ⟨-, hle⟩⟩ :=
    powRatio_spec hden h
  · obtain ⟨-, rfl⟩ := checked_eq_ok_iff.mp hm
    exact ⟨_, rfl, zero_mul e, rfl, .inl ⟨hq, beq_zero_mul zero_beq_zero hfin⟩⟩
  · obtain ⟨-, rfl⟩ := checked_eq_ok_iff.mp hm
    refine ⟨_, rfl, zero_mul e, rfl, .inr ⟨hnone, rfl, x, hx, ?_⟩⟩
    exact (Alike.zero_add zero_beq_zero _).mul_right hfin
  · exact absurd hpos (not_lt.mpr hle)

theorem PowerOf.of_ofTemperament (h : ofTemperament s count e a = .ok m) :
    PowerOf (split (table.take count) a).1 (split (table.take count) a).2 e m := by
  obtain ⟨base, hbase, h⟩ := bind_eq_ok.mp h
  obtain rfl := parts_of_ofRatioOver hbase
  simp only at h
  split at h
  · next q hq =>
    obtain ⟨-, rfl⟩ := checked_eq_ok_iff.mp h
    exact ⟨rfl, rfl, .inl ⟨hq, zero_beq_zero⟩⟩
  · next hnone =>
    split at h
    · cases h
    · split at h
      · cases h
      · next x hx =>
        obtain ⟨-, rfl⟩ := checked_eq_ok_iff.mp h
        exact ⟨rfl, rfl, .inr ⟨hnone, rfl, x, hx, .refl _⟩⟩

/-! ## Powers that pass for ratios -/

/-- Whole exponents that are scaled ones have a product whose power is that of the first ones. -/
theorem powerProduct_pow_eq {ks : List Int} (h : wholes ks = (wholes ns).map (· * e))
    (primes : List Nat) :
    powerProduct primes ks ^ e.den = powerProduct primes ns ^ e.num := by
  have hscaled : ks.map (· * (e.den : Int)) = ns.map (· * e.num) := by
    have hcast : wholes (ks.map (· * (e.den : Int))) = wholes (ns.map (· * e.num)) := by
      rw [← wholes_map (· * (e.den : Int)) (· * (e.den : ℚ)) (fun n => by push_cast; rfl),
        ← wholes_map (· * e.num) (· * (e.num : ℚ)) (fun n => by push_cast; rfl), h, List.map_map]
      refine List.map_congr_left fun n _ => ?_
      rw [Function.comp_apply, mul_assoc, Rat.mul_den_eq_num]
    rw [← map_num_wholes (ks.map _), hcast, map_num_wholes]
  rw [← zpow_natCast, ← powerProduct_map_mul, hscaled, powerProduct_map_mul]

/-- A power that passes for a ratio is one exactly when no correction vanished. -/
theorem PowerOf.pow_ratio_iff (h : PowerOf ns residual e m) (hpos : 0 < residual)
    (hfrac : m.isFractional) :
    m.ratio ^ e.den = (residual * powerProduct table ns) ^ e.num ↔ Discerned residual e := by
  obtain ⟨hcents, ks, hks⟩ := isFractional_iff.mp hfrac
  have hproduct := powerProduct_pow_eq (hks.symm.trans h.exps) table
  have hne : powerProduct table ns ^ e.num ≠ 0 :=
    zpow_ne_zero _ (powerProduct_pos distinct_table ns).ne'
  rw [ratio_eq_of_exps hks, mul_pow, mul_zpow, hproduct, mul_left_inj' hne]
  rcases h.rest with ⟨hpow, -⟩ | ⟨hnone, hone, x, hx, halike⟩
  · refine iff_of_true ((Ratio.pow?_eq_some_iff hpos).mp hpow).2 fun hnone => ?_
    rw [hpow] at hnone
    cases hnone
  · refine iff_of_false ?_ fun hdiscerned => hdiscerned hnone x hx (halike.beq_zero hcents)
    rw [hone, one_pow]
    intro hroot
    have hsome : Ratio.pow? residual e = some 1 :=
      (Ratio.pow?_eq_some_iff hpos).mpr ⟨one_pos, by rw [one_pow, hroot]⟩
    rw [hnone] at hsome
    cases hsome

/-- The factors of a power are the powers of the factors. -/
theorem split_pow {primes : List Nat} (h : Distinct primes) {q : ℚ} (hq : q ≠ 0) (k : Nat) :
    split primes (q ^ k) = ((split primes q).1.map (· * (k : Int)), (split primes q).2 ^ k) := by
  obtain ⟨hlen, hfree, hproduct⟩ := split_spec h q
  have hres := (residual_split_ne_zero_iff h).mpr hq
  refine split_eq_of_eq_mul h (by rwa [List.length_map]) (pow_ne_zero k hres) ?_ ?_
  · rw [← zpow_natCast]
    exact hfree.zpow h k
  · rw [powerProduct_map_mul, zpow_natCast, ← mul_pow, hproduct]

/-- A power that is a ratio is found: nothing is left for a correction. -/
theorem PowerOf.eq_of_pow_eq (ha : 0 < a)
    (h : PowerOf (split (table.take count) a).1 (split (table.take count) a).2 e m)
    (hr : r ^ e.den = a ^ e.num) : m.isFractional ∧ m.ratio = |r| := by
  have hprimes := distinct_table.take count
  have hden := e.den_pos.ne'
  -- the positive root is as good as the given one
  have habs : |r| ^ e.den = a ^ e.num := by rw [← abs_pow, hr, abs_of_pos (zpow_pos ha _)]
  have hr0 : 0 < |r| := by
    refine abs_pos.mpr fun h0 => ?_
    rw [h0, zero_pow hden] at hr
    exact (zpow_pos ha e.num).ne hr
  obtain ⟨base, hbase, rfl⟩ := Ratio.exists_pow_eq ha hr0 habs
  obtain ⟨hlen, -, hproduct⟩ := split_spec hprimes base
  have hbaseres : 0 < (split (table.take count) base).2 := residual_pos hbase
  rw [split_pow hprimes hbase.ne'] at h
  generalize split (table.take count) base = parts at hlen hproduct hbaseres h
  have hpow : Ratio.pow? (parts.2 ^ e.den) e = some (parts.2 ^ e.num) := by
    refine (Ratio.pow?_eq_some_iff (pow_pos hbaseres _)).mpr ⟨zpow_pos hbaseres _, ?_⟩
    rw [← zpow_natCast, ← zpow_natCast, ← zpow_mul, ← zpow_mul, mul_comm]
  have hexps : m.exps = wholes (parts.1.map (· * e.num)) := by
    rw [h.exps, ← wholes_map (· * (e.den : Int)) (· * (e.den : ℚ)) (fun n => by push_cast; rfl),
      ← wholes_map (· * e.num) (· * (e.num : ℚ)) (fun n => by push_cast; rfl), List.map_map]
    refine List.map_congr_left fun n _ => ?_
    rw [Function.comp_apply, mul_assoc, Rat.den_mul_eq_num]
  rcases h.rest with ⟨hres, hcents⟩ | ⟨hnone, -⟩
  · refine ⟨isFractional_iff.mpr ⟨hcents, _, hexps⟩, ?_⟩
    rw [hpow, Option.some_inj] at hres
    have hratio : m.ratio = base ^ e.num := by
      rw [ratio_eq_of_exps hexps, powerProduct_map_mul, ← hres, ← mul_zpow,
        ← powerProduct_take table _ (hlen.trans_le (List.length_take_le _ _)), hproduct]
    have hpowers : (base ^ e.num) ^ e.den = |r| ^ e.den := by
      rw [habs, ← zpow_natCast, ← zpow_natCast, ← zpow_mul, ← zpow_mul, mul_comm]
    rw [hratio]
    exact (pow_left_inj₀ (zpow_pos hbase _).le hr0.le hden).mp hpowers
  · rw [hpow] at hnone
    cases hnone

/-- A rational power of a ratio, taken of its value or as a fraction of an equave: the power is
the ratio for which it passes exactly when no correction vanished, and it is found when there is
one. -/
theorem root_of_ratio (ha : 0 < a) (hden : e.den < s.maxPowDenominator)
    (h : (∃ base, ofRatioOver t count a = .ok base ∧ base.powNumber s (.ratio e) = .ok v) ∨
      (ofTemperament s count e a).map .exact = .ok v) :
    (∀ r, v.isFractional → v.toRatio = .ok r →
      (r ^ e.den = a ^ e.num ↔ Discerned (split (table.take count) a).2 e)) ∧
    ∀ r, r ^ e.den = a ^ e.num → v.isFractional ∧ v.toRatio = .ok |r| := by
  have hpower : ∃ m, v = .exact m ∧
      PowerOf (split (table.take count) a).1 (split (table.take count) a).2 e m := by
    rcases h with ⟨base, hbase, h⟩ | h
    · exact PowerOf.of_powRatio ha hden hbase h
    · obtain ⟨m, hm, rfl⟩ := map_eq_ok.mp h
      exact ⟨m, rfl, .of_ofTemperament hm⟩
  obtain ⟨m, rfl, hm⟩ := hpower
  obtain ⟨hlen, -, hproduct⟩ := split_spec (distinct_table.take count) a
  rw [powerProduct_take _ _ (hlen.trans_le (List.length_take_le _ _))] at hproduct
  constructor
  · intro r hfrac hratio
    have hiff := hm.pow_ratio_iff (residual_pos ha) hfrac
    rw [hproduct] at hiff
    have hr : m.toRatio = .ok m.ratio := if_pos hfrac
    obtain rfl : m.ratio = r := Except.ok.inj (hr.symm.trans hratio)
    exact hiff
  · intro r hr
    obtain ⟨hfrac, hratio⟩ := hm.eq_of_pow_eq ha hr
    refine ⟨hfrac, ?_⟩
    rw [Value.toRatio, toRatio, if_pos hfrac, hratio]

/-- The square root of a square over two primes, whose residual is a square too. -/
theorem root_of_square : ∃ m, ofTemperament {} 2 (1 / 2) (100 / 49) = .ok m ∧
    m.isFractional ∧ m.toRatio = .ok (10 / 7) := by
  have hok : (ofTemperament {} 2 (1 / 2) (100 / 49)).map (fun _ => ()) = .ok () := by
    decide +kernel
  obtain ⟨m, hm, -⟩ := map_eq_ok.mp hok
  have hden : (1 / 2 : ℚ).den < ({} : Settings).maxPowDenominator := by decide +kernel
  have hroot := (root_of_ratio (t := {}) (v := .exact m) (by norm_num) hden
    (.inr (map_eq_ok.mpr ⟨m, hm, rfl⟩))).2 (-10 / 7) (by norm_num)
  have habs : |(-10 / 7 : ℚ)| = 10 / 7 := by norm_num [abs_of_neg]
  rw [habs] at hroot
  exact ⟨m, hm, hroot⟩

/-- The terms of this ratio round to one double. Both ways to its square root give one, which
squares to one. -/
theorem root_of_closeTerms :
    let a : ℚ := 1000000000000000009 / 1000000000000000003
    (∃ base v, ofRatio {} a = .ok base ∧ base.powNumber {} (.ratio (1 / 2)) = .ok v ∧
      v.isFractional ∧ v.toRatio = .ok 1) ∧
    (∃ m, ofTemperament {} 9 (1 / 2) a = .ok m ∧ m.isFractional ∧ m.toRatio = .ok 1) ∧
    (1 : ℚ) ^ (1 / 2 : ℚ).den ≠ a ^ (1 / 2 : ℚ).num := by
  intro a
  have hpow : (ofRatio {} a >>= fun base => base.powNumber {} (.ratio (1 / 2))).map
      (fun v => (v.isFractional, v.toRatio)) = .ok (true, .ok 1) := by decide +kernel
  have htempered : (ofTemperament {} 9 (1 / 2) a).map (fun m => (m.isFractional, m.toRatio)) =
      .ok (true, .ok 1) := by decide +kernel
  obtain ⟨v, hv, hvalue⟩ := map_eq_ok.mp hpow
  obtain ⟨base, hbase, hv⟩ := bind_eq_ok.mp hv
  obtain ⟨m, hm, hmvalue⟩ := map_eq_ok.mp htempered
  rw [Prod.mk.injEq] at hvalue hmvalue
  exact ⟨⟨base, v, hbase, hv, hvalue⟩, ⟨m, hm, hmvalue⟩, by norm_num [a]⟩

end Intonation.Monzo
