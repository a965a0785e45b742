import Intonation.Proofs.Monzo.Group
import Intonation.Proofs.Monzo.Multiples
import Intonation.Proofs.Monzo.Root

/-!
# Exact logarithms

The exponent between two values is looked for over a common basis: the basis of both, grown until
it factors both residuals where the table of primes can do that. The first exponent of the base
that is not zero gives a candidate. It counts only when every other exponent is scaled by it and
the residual raised to it, so that a logarithm that comes out exact is right.

The signs are taken off first, and off both values or none.

## Main definitions

* `Monzo.commonBasis`: the number of primes over which the exponent is looked for
* `Monzo.magnitude`: the exponents and the residual of a value without its sign
* `Monzo.PowerOver`: one value as a power of another over a common basis

## Main statements

* `exponentQuotient?_eq_some_iff`: a quotient scales every exponent of the base
* `solve_eq_widen`: the search over the common basis
* `powerOver_of_solve`: what it finds is an exponent
* `pow_ratio_of_powerOver`: an exponent of two ratios raises one to the other
* `log_exact`: an exact logarithm is right
-/

namespace Intonation.Monzo
open Double Intonation.Prime

variable {s : Settings} {a b : Monzo} {as bs : List ℚ} {count : Nat} {x : ℚ}

/-! ## The factor between two rows of exponents -/

/-- A quotient scales every exponent of the base, and is found when the base has an exponent at
all. -/
theorem exponentQuotient?_eq_some_iff (hlen : as.length = bs.length) :
    exponentQuotient? as bs = some x ↔ (∃ b ∈ bs, b ≠ 0) ∧ as = bs.map (· * x) := by
  constructor
  · intro h
    unfold exponentQuotient? at h
    split at h
    · cases h
    · next a b hfind =>
      split at h <;> cases h
      next hall =>
      have hb : b ≠ 0 := by simpa using List.find?_some hfind
      refine ⟨⟨b, (List.of_mem_zip (List.mem_of_find?_eq_some hfind)).2, hb⟩, ?_⟩
      calc as = (as.zip bs).map Prod.fst := (List.map_fst_zip hlen.le).symm
        _ = (as.zip bs).map fun p => p.2 * (a / b) := List.map_congr_left fun p hp => by
          rw [List.all_eq_true] at hall
          simpa [mul_comm] using hall p hp
        _ = ((as.zip bs).map Prod.snd).map (· * (a / b)) := by rw [List.map_map]; rfl
        _ = bs.map (· * (a / b)) := by rw [List.map_snd_zip hlen.ge]
  · rintro ⟨hne, rfl⟩
    have hself := @exponentQuotient?_map_mul bs x 1 (by simpa using hne)
    simpa using hself

/-! ## The common basis -/

/-- The number of primes over which the exponent between two values is looked for. -/
def commonBasis (a b : Monzo) : Nat := max (max a.components b.components) (commonLimit a b)

/-- The exponent is looked for between the two values over the common basis. -/
theorem solve_eq_widen (s : Settings) (a b : Monzo) :
    solve s a b = (do
      let c ← a.widen s (commonBasis a b)
      let d ← b.widen s (commonBasis a b)
      match exponentQuotient? c.exps d.exps with
      | none => .ok none
      | some x => .ok (if Ratio.pow? d.residual x = some c.residual then some x else none)) := by
  unfold solve
  by_cases hlt : max a.components b.components < commonLimit a b
  · -- the first value grows, and the second one follows it
    have hbasis : commonBasis a b = commonLimit a b := max_eq_right hlt.le
    have ha : a.components < commonLimit a b := (le_max_left _ _).trans_lt hlt
    have hresize : a.resize s (commonLimit a b) = a.widen s (commonLimit a b) := by
      rw [resize, if_neg ha.not_gt, if_pos ha, widen, if_pos ha]
    simp only [if_pos hlt, hresize, hbasis]
    cases hc : a.widen s (commonLimit a b) with
    | error f => rfl
    | ok c =>
      have hcomponents : c.components = commonLimit a b :=
        (components_of_widen hc).trans (max_eq_right ha.le)
      have hkept : c.widen s b.components = .ok c := by
        rw [widen, if_neg]
        rw [hcomponents]
        exact ((le_max_right _ _).trans_lt hlt).not_gt
      show align s c b >>= _ = _
      rw [align, hkept, hcomponents]
      cases b.widen s (commonLimit a b) <;> rfl
  · have hbasis : commonBasis a b = max a.components b.components := max_eq_left (not_lt.mp hlt)
    simp only [if_neg hlt, hbasis, widen_max]
    rw [max_comm, widen_max]
    show align s a b >>= _ = _
    rw [align]
    cases a.widen s b.components with
    | error f => rfl
    | ok c => cases b.widen s a.components <;> rfl

/-! ## Powers over a common basis -/

/-- The exponents and the residual of a value without its sign. -/
def magnitude (m : Monzo) : List ℚ × ℚ := (m.exps, |m.residual|)

/-- Over the given number of primes, every exponent of the one is that of the other scaled, and
the residual is that of the other raised. -/
def PowerOver (count : Nat) (x : ℚ) (p q : List ℚ × ℚ) : Prop :=
  (spread count p).1 = (spread count q).1.map (· * x) ∧
    (spread count p).2 ^ x.den = (spread count q).2 ^ x.num

theorem powerOver_of_solve (h : solve s a b = .ok (some x)) :
    PowerOver (commonBasis a b) x a.parts b.parts := by
  rw [solve_eq_widen] at h
  obtain ⟨c, hc, h⟩ := bind_eq_ok.mp h
  obtain ⟨d, hd, h⟩ := bind_eq_ok.mp h
  have hlen : c.exps.length = d.exps.length := by
    have hcd : c.components = d.components := by
      rw [components_of_widen hc, components_of_widen hd, max_eq_right, max_eq_right]
      · exact (le_max_right _ _).trans (le_max_left _ _)
      · exact (le_max_left _ _).trans (le_max_left _ _)
    exact hcd
  obtain ⟨hpc, -, -⟩ := parts_of_widen hc
  obtain ⟨hpd, -, -⟩ := parts_of_widen hd
  rw [PowerOver, ← hpc, ← hpd]
  split at h
  · cases h
  · next y hy =>
    split at h <;> cases h
    next hpow =>
    exact ⟨((exponentQuotient?_eq_some_iff hlen).mp hy).2, Ratio.pow_den_of_pow? hpow⟩

/-! ## Ratios -/

/-- Over more primes, whole exponents and a residual stand for the same ratio. -/
theorem spread_wholes (count : Nat) (ns : List Int) (r : ℚ) :
    ∃ ks t, spread count (wholes ns, r) = (wholes ks, t) ∧
      t * powerProduct table ks = r * powerProduct table ns := by
  by_cases hlt : (wholes ns).length < count
  · obtain ⟨ks, hks, -, hproduct⟩ := addExponents_wholes ns (split (table.take count) r).1
    obtain ⟨hlen, -, hsplit⟩ := split_spec (distinct_table.take count) r
    refine ⟨ks, (split (table.take count) r).2, ?_, ?_⟩
    · rw [spread, if_pos hlt]
      exact congrArg (·, (split (table.take count) r).2) hks
    · rw [powerProduct_take table _ (hlen.trans_le (List.length_take_le _ _))] at hsplit
      rw [hproduct table distinct_table, mul_left_comm, hsplit, mul_comm]
  · exact ⟨ns, r, spread_of_le (not_lt.mp hlt), rfl⟩

/-- An exponent between two ratios raises the one to the other. -/
theorem pow_ratio_of_powerOver (ha : a.isFractional) (hb : b.isFractional)
    (h : PowerOver count x a.magnitude b.magnitude) : |a.ratio| ^ x.den = |b.ratio| ^ x.num := by
  obtain ⟨-, ns, hns⟩ := isFractional_iff.mp ha
  obtain ⟨-, ms, hms⟩ := isFractional_iff.mp hb
  have hsize : ∀ {m : Monzo} {ks : List Int}, m.exps = wholes ks →
      |m.ratio| = |m.residual| * powerProduct table ks := by
    intro m ks hks
    rw [ratio_eq_of_exps hks, abs_mul, abs_of_pos (powerProduct_pos distinct_table ks)]
  obtain ⟨ks, t, hspread, hratio⟩ := spread_wholes count ns |a.residual|
  obtain ⟨ls, u, hspread', hratio'⟩ := spread_wholes count ms |b.residual|
  rw [PowerOver, magnitude, magnitude, hns, hms, hspread, hspread'] at h
  rw [hsize hns, hsize hms, ← hratio, ← hratio', mul_pow, mul_zpow,
    powerProduct_pow_eq h.1 table, h.2]

/-! ## Exact logarithms -/

theorem realLog_ne_exact (a b m : Monzo) : a.realLog b ≠ .ok (.exact m) := by
  intro h
  obtain ⟨_, -, h⟩ := map_eq_ok.mp h
  cases h

/-- An exact logarithm of scalars comes from the search, after the signs of both are taken off. -/
theorem exists_solve_of_log {v : Monzo} (ha : a.isScalar) (hb : b.isScalar)
    (hca : a.isUncorrected) (hcb : b.isUncorrected) (h : a.log s b = .ok (.exact v)) :
    ∃ x c d, ofRatio s x = .ok v ∧ solve s c d = .ok (some x) ∧
      c.parts = a.magnitude ∧ d.parts = b.magnitude ∧
      (0 < a.residual ∧ 0 < b.residual ∨ a.residual < 0 ∧ b.residual < 0) := by
  have htime : ¬ (a.time ≠ 0 ∨ b.time ≠ 0) := by
    rw [not_or, not_not, not_not]
    exact ⟨of_decide_eq_true ha, of_decide_eq_true hb⟩
  have hvalue : ∀ {x : ℚ}, (ofRatio s x).map Value.exact = .ok (.exact v) →
      ofRatio s x = .ok v := by
    intro x h
    obtain ⟨v', hv, heq⟩ := map_eq_ok.mp h
    cases heq
    exact hv
  rw [log, hca, hcb, if_neg (by simp), if_neg htime, scalarLog] at h
  split at h
  · next hneg =>
    -- two negative values are taken as their magnitudes
    obtain ⟨c, hc, h⟩ := bind_eq_ok.mp h
    obtain ⟨d, hd, h⟩ := bind_eq_ok.mp h
    obtain ⟨-, rfl⟩ := checked_eq_ok_iff.mp hc
    obtain ⟨-, rfl⟩ := checked_eq_ok_iff.mp hd
    obtain ⟨solution, hsolve, h⟩ := bind_eq_ok.mp h
    cases solution with
    | none => exact absurd h (realLog_ne_exact a b v)
    | some x =>
      refine ⟨x, _, _, hvalue h, hsolve, ?_, ?_, .inr hneg⟩
      · rw [magnitude, abs_of_neg hneg.1]
        rfl
      · rw [magnitude, abs_of_neg hneg.2]
        rfl
  · split at h
    · exact absurd h (realLog_ne_exact a b v)
    · next hpos =>
      rw [not_or, not_le, not_le] at hpos
      obtain ⟨solution, hsolve, h⟩ := bind_eq_ok.mp h
      cases solution with
      | none => exact absurd h (realLog_ne_exact a b v)
      | some x =>
        refine ⟨x, a, b, hvalue h, hsolve, ?_, ?_, .inl hpos⟩
        · rw [magnitude, abs_of_pos hpos.1]
          rfl
        · rw [magnitude, abs_of_pos hpos.2]
          rfl

/-- An exact logarithm is right: the values have one sign, over a common basis that holds both
the magnitude of the one is the power of that of the other, and for two ratios the power is that
of the ratios. -/
theorem log_exact {v : Monzo} (ha : a.isScalar) (hb : b.isScalar) (hca : a.isUncorrected)
    (hcb : b.isUncorrected) (h : a.log s b = .ok (.exact v)) :
    ∃ x, v.toRatio = .ok x ∧
      (0 < a.residual ∧ 0 < b.residual ∨ a.residual < 0 ∧ b.residual < 0) ∧
      (∃ count, max a.components b.components ≤ count ∧
        PowerOver count x a.magnitude b.magnitude) ∧
      (a.isFractional → b.isFractional → |a.ratio| ^ x.den = |b.ratio| ^ x.num) := by
  obtain ⟨x, c, d, hv, hsolve, hc, hd, hsign⟩ := exists_solve_of_log ha hb hca hcb h
  have hpower := powerOver_of_solve hsolve
  rw [hc, hd] at hpower
  obtain ⟨hcanonical, hratio, -⟩ := canonical_ofRatio hv
  refine ⟨x, hcanonical.toRatio.trans (by rw [hratio]), hsign, ⟨_, ?_, hpower⟩,
    fun hfa hfb => pow_ratio_of_powerOver hfa hfb hpower⟩
  have hcomponents : a.components = c.components ∧ b.components = d.components :=
    ⟨congrArg (List.length ∘ Prod.fst) hc.symm, congrArg (List.length ∘ Prod.fst) hd.symm⟩
  rw [hcomponents.1, hcomponents.2]
  exact le_max_left _ _

/-- Two negative values of different bases, the one the power of the other with exponent `3 / 2`. -/
theorem log_exact_negative :
    let a : Monzo := { exps := [3 / 4], residual := -27 }
    let b : Monzo := { exps := [1 / 2, 2], residual := -1 }
    ∃ v, a.log {} b = .ok (.exact v) ∧ v.toRatio = .ok (3 / 2) ∧
      ∃ count, 2 ≤ count ∧ PowerOver count (3 / 2) ([3 / 4], 27) ([1 / 2, 2], 1) := by
  intro a b
  have hok : (a.log {} b).map (fun v => (v.isExact, v.toRatio)) = .ok (true, .ok (3 / 2)) := by
    decide +kernel
  obtain ⟨v, hv, hvalue⟩ := map_eq_ok.mp hok
  cases v with
  | real r => cases hvalue
  | exact m =>
    obtain ⟨x, hx, -, ⟨count, hcount, hpower⟩, -⟩ := log_exact (a := a) (b := b) (by decide)
      (by decide) (by decide +kernel) (by decide +kernel) hv
    have hratio : m.toRatio = .ok (3 / 2) := congrArg Prod.snd hvalue
    obtain rfl : x = 3 / 2 := Except.ok.inj (hx.symm.trans hratio)
    refine ⟨m, hv, hratio, count, hcount, ?_⟩
    have hsizes : a.magnitude = ([3 / 4], 27) ∧ b.magnitude = ([1 / 2, 2], 1) := by
      constructor <;> norm_num [magnitude, a, b]
    rwa [hsizes.1, hsizes.2] at hpower

end Intonation.Monzo
