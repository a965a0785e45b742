import Intonation.Proofs.Literal.RatioArithmetic

/-!
# Powers of literals of ratios

A whole power of a ratio is written out, any other power is a radical. A radical lowers to the
ratio over the tracked primes raised to the exponent, which is how the power of a value is taken.

## Main statements

* `Canonical.powRatio_whole`: whole powers of canonical values
* `Canonical.powRatio_coincide`: any power coincides with a lowered radical
* `Spells.pow`: powers of literals
-/

namespace Intonation
open Double

theorem Number.toDouble_ratio_eq_ok {q : ℚ} {x : Float} :
    (Number.ratio q).toDouble = .ok x ↔ Double.ofRat? q = some x := by
  show Number.toDouble.ofRat q = _ ↔ _
  unfold Number.toDouble.ofRat
  cases Double.ofRat? q <;> simp

namespace Monzo

variable {s : Settings} {a : Monzo} {v : Value}

/-- A power with an exponent of a small denominator, unless it is the power of zero with a
negative exponent. -/
theorem powRatio_spec {y : ℚ} (hden : y.den < s.maxPowDenominator)
    (h : a.powRatio s y = .ok v) : ∃ x, Double.ofRat? y = some x ∧ x.isFinite ∧
      ((∃ q m, Ratio.pow? a.residual y = some q ∧ v = .exact m ∧ checked s
        { time := a.time * y
          exps := a.exps.map (· * y)
          residual := q
          cents := a.cents * x } = .ok m) ∨
      (Ratio.pow? a.residual y = none ∧ 0 < a.residual ∧ ∃ m, v = .exact m ∧ checked s
        { time := a.time * y
          exps := a.exps.map (· * y)
          cents := (a.cents + 1200 * Double.log2Ratio a.residual) * x } = .ok m) ∨
      (Ratio.pow? a.residual y = none ∧ a.residual ≤ 0)) := by
  unfold powRatio at h
  rw [if_neg (not_le.mpr hden)] at h
  split at h
  · cases h
  · split at h
    · next q hq =>
      obtain ⟨x, hx, h⟩ := bind_eq_ok.mp h
      obtain ⟨m, hm, hv⟩ := bind_eq_ok.mp h
      refine ⟨x, Number.toDouble_ratio_eq_ok.mp hx, Number.isFinite_of_toDouble hx, .inl ?_⟩
      exact ⟨q, m, hq, (Except.ok.inj hv).symm, hm⟩
    · next hnone =>
      obtain ⟨x, hx, h⟩ := bind_eq_ok.mp h
      refine ⟨x, Number.toDouble_ratio_eq_ok.mp hx, Number.isFinite_of_toDouble hx, .inr ?_⟩
      split at h
      · next hres => exact .inr ⟨hnone, hres⟩
      · next hres =>
        obtain ⟨m, hm, hv⟩ := bind_eq_ok.mp h
        exact .inl ⟨hnone, not_le.mp hres, m, (Except.ok.inj hv).symm, hm⟩

/-- Whole powers of canonical scalars are canonical. -/
theorem Canonical.powRatio_whole (ha : Canonical s a) (ht : a.time = 0) {k : Int}
    (hden : 1 < s.maxPowDenominator) (hzero : ¬ (a.ratio = 0 ∧ k < 0))
    (h : a.powRatio s k = .ok v) :
    ∃ m : Monzo, v = .exact m ∧ m.Canonical s ∧ m.ratio = a.ratio ^ k ∧ m.time = 0 := by
  rw [ha.ratio_eq_zero_iff] at hzero
  have hpow : Ratio.pow? a.residual k = some (a.residual ^ k) := by
    rw [Ratio.pow?_intCast, if_neg hzero]
  obtain ⟨x, -, hx, ⟨q, m, hq, rfl, hm⟩ | ⟨hnone, -⟩ | ⟨hnone, -⟩⟩ :=
    powRatio_spec ((Rat.den_intCast k).symm ▸ hden) h
  · rw [hpow] at hq
    cases hq
    obtain ⟨hc, hr, htm⟩ := ha.checked_pow hx hm
    exact ⟨m, rfl, hc, hr, by rw [htm, ht, zero_mul]⟩
  · rw [hpow] at hnone
    cases hnone
  · rw [hpow] at hnone
    cases hnone

/-- A canonical scalar is an exponent by its ratio. -/
theorem pow_canonical (m : Monzo) {n : Monzo} (hn : Canonical s n) (ht : n.time = 0) :
    m.pow s (.exact n) = m.powRatio s n.ratio := by
  have hscalar : (Value.exact n).isScalar = true := decide_eq_true ht
  unfold Monzo.pow
  rw [hscalar]
  exact if_pos hn.isFractional

/-- A power of a positive canonical scalar coincides with the lowered radical. -/
theorem Canonical.powRatio_coincide (ha : Canonical s a) (ht : a.time = 0) {y : ℚ}
    (hden : y.den < s.maxPowDenominator) (hpos : 0 < a.ratio) (h : a.powRatio s y = .ok v) :
    ∃ m w : Monzo, v = .exact m ∧ ofTemperament s s.numberOfComponents y a.ratio = .ok w ∧
      m.Coincide w := by
  obtain ⟨base, hbase⟩ := ha.exists_ofRatio
  obtain ⟨hcb, hrb, -⟩ := canonical_ofRatio hbase
  obtain ⟨hexps, hres⟩ := hcb.components_eq ha hrb (hrb ▸ hpos.ne')
  have hres0 : 0 < a.residual := ha.ratio_pos_iff.mp hpos
  obtain ⟨x, hx, hfin, ⟨q, m, hq, rfl, hm⟩ | ⟨hnone, -, m, rfl, hm⟩ | ⟨-, hle⟩⟩ :=
    powRatio_spec hden h
  · obtain ⟨hb, rfl⟩ := checked_eq_ok_iff.mp hm
    have hcents : Alike (a.cents * x) 0 :=
      .of_beq_zero (beq_zero_mul ha.uncorrected hfin) zero_beq_zero
    refine ⟨_, { exps := a.exps.map (· * y), residual := q }, rfl, ?_,
      ⟨by rw [ht, zero_mul], rfl, rfl, hcents⟩⟩
    rw [ofTemperament_of_pow hbase (hres ▸ hq), hexps]
    refine checked_eq_ok_iff.mpr ⟨bounded_congr ?_ ?_ hcents hb, rfl⟩ <;> rfl
  · obtain ⟨hb, rfl⟩ := checked_eq_ok_iff.mp hm
    have hcents : Alike ((a.cents + 1200 * Double.log2Ratio a.residual) * x)
        (1200 * Double.log2Ratio a.residual * x) :=
      (Alike.zero_add ha.uncorrected _).mul_right hfin
    refine ⟨_, { exps := a.exps.map (· * y), cents := 1200 * Double.log2Ratio a.residual * x },
      rfl, ?_, ⟨by rw [ht, zero_mul], rfl, rfl, hcents⟩⟩
    rw [ofTemperament_of_not_pow hbase (hres ▸ hnone) (hres ▸ hres0.ne') hx, hexps, hres]
    refine checked_eq_ok_iff.mpr ⟨bounded_congr ?_ ?_ hcents hb, rfl⟩ <;> rfl
  · exact absurd hres0 (not_lt.mpr hle)

end Monzo

namespace Literal

variable {s : Settings} {l a b : Literal} {v w r : Value} {q t : ℚ}

theorem Denotes.powWhole {p : ℚ} {k : Int} (ha : Denotes a p 0)
    (hl : Literal.powWhole s a p k = some l) : ¬ (p = 0 ∧ k < 0) ∧ Denotes l (p ^ k) 0 := by
  have hfraction : ∀ q : ℚ, Denotes (Literal.fraction q.num q.den) q 0 := by
    intro q
    have hd : ((q.den : Nat) : Int) ≠ 0 := by exact_mod_cast q.den_ne_zero
    have hq := Denotes.fraction (n := q.num) hd
    rwa [Int.cast_natCast, Rat.num_div_den] at hq
  unfold Literal.powWhole at hl
  split at hl
  · cases hl
  · split at hl
    · cases hl
    · next hzero =>
      refine ⟨hzero, ?_⟩
      rw [Ratio.power_eq_zpow] at hl
      cases ha with
      | integer n =>
        simp only at hl
        split at hl
        · next hk =>
          cases hl
          obtain ⟨j, rfl⟩ := Int.eq_ofNat_of_zero_le hk
          have h := Denotes.integer (n ^ j)
          have hcast : (n : ℚ) ^ (j : Int) = ((n ^ j : Int) : ℚ) := by
            rw [zpow_natCast]
            push_cast
            rfl
          rw [hcast, Rat.num_intCast]
          exact h
        · cases hl
          exact hfraction _
      | fraction hd =>
        cases hl
        exact hfraction _
      | decimal =>
        cases hl
        exact hfraction _

/-- Powers with an exponent of a small denominator. -/
theorem Spells.pow (ha : Spells s a v) (hb : Spells s b w) (hr : v.pow s w = .ok r)
    (hden : ∀ q, b.exactRatio? = some q → q.den < s.maxPowDenominator)
    (hl : Literal.pow s a b = some l) : Spells s l r := by
  unfold Literal.pow at hl
  split at hl
  · next p q hp hq =>
    obtain ⟨hda, m, rfl, hm, hmp, hmt⟩ := ha.of_exactRatio? hp
    obtain ⟨-, n, rfl, hn, hnq, hnt⟩ := hb.of_exactRatio? hq
    have hpow : m.powRatio s q = .ok r := by
      replace hr : m.pow s (.exact n) = .ok r := hr
      rwa [Monzo.pow_canonical m hn hnt, hnq] at hr
    split at hl
    · next hq1 =>
      have hk : q = (q.num : ℚ) := ((Rat.den_eq_one_iff q).mp hq1).symm
      obtain ⟨hzero, hd⟩ := hda.powWhole hl
      rw [hk] at hpow
      obtain ⟨y, rfl, hy, hyr, hyt⟩ :=
        hm.powRatio_whole hmt (hq1 ▸ hden q hq) (hmp ▸ hzero) hpow
      exact hd.spells hy (by rw [hyr, hmp]) hyt
    · split at hl
      · cases hl
      · next hpos =>
        cases hl
        rw [not_le] at hpos
        obtain ⟨y, z, rfl, hz, hyz⟩ := hm.powRatio_coincide hmt (hden q hq) (hmp ▸ hpos) hpow
        exact .radical hpos (hmp ▸ hz) hyz
  · cases hl

/-- Roots with an index of a small numerator. -/
theorem Spells.root {u : Value} (ha : Spells s a v) (hb : Spells s b w)
    (hu : w.inverse s = .ok u) (hr : v.pow s u = .ok r)
    (hden : ∀ q, b.exactRatio? = some q → q⁻¹.den < s.maxPowDenominator) {b' : Literal}
    (hb' : b.invert = some b') (hl : Literal.pow s a b' = some l) : Spells s l r := by
  refine ha.pow (hb.invert hu hb') hr (fun q hq => ?_) hl
  cases hb with
  | radical => cases hb'
  | @ratio _ p t _ h hm hp ht =>
    obtain ⟨-, -, hd⟩ := h.invert hb'
    have hpq : b.exactRatio? = some p := by
      cases h with
      | decimal => cases hb'
      | integer => rfl
      | fraction hd0 => exact if_neg hd0
    rw [← (hd.of_exactRatio? hq).1]
    exact hden p hpq

end Literal

end Intonation
