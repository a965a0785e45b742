import Intonation.Interval.Arithmetic
import Intonation.Proofs.Monzo.Measuring
import Intonation.Proofs.Monzo.Vector
import Intonation.Proofs.Ratio.Remainder

/-!
# Multiples of one vector

Logarithms, reductions and harmonic combinations of multiples of one vector are those of their
factors.

## Main definitions

* `lensFactor`: the factor of a harmonic combination, where a unison absorbs the other operand

## Main statements

* `exponentQuotient?_map_mul`: the quotient of multiples of one vector
* `IsVector.reduce`: reductions are remainders of factors
* `IsVector.lens`: harmonic combinations are those of factors
-/

namespace Intonation

/-- The factor of a harmonic combination; a unison absorbs the other operand. -/
def lensFactor (op : ℚ → ℚ → ℚ) (x y : ℚ) : Option ℚ :=
  if x = 0 then some x else if y = 0 then some y else Literal.harmonic op x y

namespace Monzo
open Double

variable {s : Settings} {m n : Monzo} {es fs : List ℚ} {x y : ℚ} {v : Value}

/-! ## Logarithms -/

theorem exponentQuotient?_map_mul (h : ∃ e ∈ es, e * y ≠ 0) :
    exponentQuotient? (es.map (· * x)) (es.map (· * y)) = some (x / y) := by
  have hzip : (es.map (· * x)).zip (es.map (· * y)) = es.map fun e => (e * x, e * y) :=
    List.zip_map'
  unfold exponentQuotient?
  rw [hzip]
  split
  · next hnone =>
    obtain ⟨e, he, hne⟩ := h
    rw [List.find?_eq_none] at hnone
    exact absurd hne (by simpa using hnone _ (List.mem_map_of_mem he))
  · next a b hsome =>
    have hquotient : a / b = x / y := by
      obtain ⟨e, -, heq⟩ := List.mem_map.mp (List.mem_of_find?_eq_some hsome)
      obtain ⟨rfl, rfl⟩ := Prod.mk.inj heq
      have hb : e * y ≠ 0 := by simpa using List.find?_some hsome
      exact mul_div_mul_left _ _ (left_ne_zero_of_mul hb)
    have hy : y ≠ 0 := by
      obtain ⟨e, -, hne⟩ := h
      exact right_ne_zero_of_mul hne
    rw [hquotient, if_pos]
    rw [List.all_eq_true]
    intro p hp
    obtain ⟨e, -, rfl⟩ := List.mem_map.mp hp
    have : e * x = x / y * (e * y) := by field_simp
    simpa using this

namespace IsVector

/-- The exact logarithm of a vector in another is the quotient of their exponents, if there is
one. -/
theorem solve_eq (hm : IsVector s m es) (hn : IsVector s n fs) (hlen : es.length = fs.length) :
    solve s m n = .ok (exponentQuotient? es fs) := by
  have hlimit : commonLimit m n = 0 := by
    unfold commonLimit
    rw [hm.residual, hn.residual]
    rfl
  unfold solve
  simp only [hlimit, Nat.not_lt_zero, if_false]
  show Monzo.align s m n >>= _ = _
  rw [align_of_components_eq (by rw [hm.components, hn.components, hlen])]
  dsimp only [Bind.bind, Except.bind]
  rw [hm.exps, hn.exps, hm.residual, hn.residual]
  cases exponentQuotient? es fs with
  | none => rfl
  | some x => simp [Ratio.pow?_one]

/-- The logarithm of a vector in another is the value of the quotient of their exponents, and a
real one without it. -/
theorem log_quotient (hm : IsVector s m es) (hn : IsVector s n fs)
    (hlen : es.length = fs.length) :
    m.log s n = match exponentQuotient? es fs with
      | some x => (ofRatio s x).map .exact
      | none => realLog m n := by
  unfold Monzo.log
  rw [hm.isUncorrected, hn.isUncorrected, hm.time, hn.time]
  show Monzo.scalarLog s m n = _
  unfold Monzo.scalarLog
  rw [hm.residual, hn.residual, hm.solve_eq hn hlen]
  rfl

/-- The logarithm of a multiple in another multiple of a vector that is not zero is the value of
the quotient. -/
theorem log_eq (hm : IsVector s m (es.map (· * x))) (hn : IsVector s n (es.map (· * y)))
    (h0 : ∃ e ∈ es, e * y ≠ 0) : m.log s n = (ofRatio s (x / y)).map .exact := by
  rw [hm.log_quotient hn (by rw [List.length_map, List.length_map]), exponentQuotient?_map_mul h0]

theorem log (hm : IsVector s m (es.map (· * x))) (hn : IsVector s n (es.map (· * y)))
    (h0 : ∃ e ∈ es, e * y ≠ 0) (h : m.log s n = .ok v) :
    ∃ r : Monzo, v = .exact r ∧ r.toRatio = .ok (x / y) := by
  rw [log_eq hm hn h0] at h
  obtain ⟨r, hr, rfl⟩ := map_eq_ok.mp h
  obtain ⟨hc, hq, -⟩ := canonical_ofRatio hr
  exact ⟨r, rfl, hc.toRatio.trans (by rw [hq])⟩

/-! ## Reductions -/

theorem addSizes_of_zero (primes : List (Nat × Float)) {es : List ℚ} (h : ∀ e ∈ es, e = 0)
    (total : Float) : addSizes primes es total = total := by
  induction primes generalizing es with
  | nil => cases es <;> rfl
  | cons pm primes ih =>
    cases es with
    | nil => rfl
    | cons e es =>
      rw [List.forall_mem_cons] at h
      rw [addSizes, if_pos h.1, ih h.2]

theorem totalCents_of_zero (hm : IsVector s m es) (h : ∀ e ∈ es, e = 0) : m.totalCents == 0 := by
  unfold Monzo.totalCents
  rw [hm.residual, hm.exps, addSizes_of_zero _ h]
  exact hm.uncorrected

/-- The periods in a multiple of a vector are the quotient of the factors. -/
theorem periods?_eq (hm : IsVector s m (es.map (· * x))) (hn : IsVector s n (es.map (· * y)))
    (h0 : ∃ e ∈ es, e * y ≠ 0) {count : Option ℚ} (h : m.periods? s n = .ok count) :
    count = some (x / y) := by
  unfold Monzo.periods? at h
  rw [hm.isScalar, hn.isScalar] at h
  obtain ⟨c, hc, h⟩ := bind_eq_ok.mp h
  obtain ⟨d, hd, h⟩ := bind_eq_ok.mp h
  obtain ⟨w, hw, h⟩ := bind_eq_ok.mp h
  obtain ⟨r, rfl, hr⟩ := (hm.abs hc).log (hn.abs hd) h0 hw
  simp only [hr] at h
  exact (Except.ok.inj h).symm

theorem reduce (hm : IsVector s m (es.map (· * x))) (hn : IsVector s n (es.map (· * y)))
    (hpow : 1 < s.maxPowDenominator) {ceiling : Bool} (h : m.reduce s n ceiling = .ok v) :
    ∃ r : Monzo, v = .exact r ∧ IsVector s r (es.map (· * Ratio.modulo x y ceiling)) := by
  unfold Monzo.reduce at h
  simp only at h
  split at h
  · cases h
  · next hperiod =>
    rw [Bool.or_eq_true, not_or] at hperiod
    have h0 : ∃ e ∈ es, e * y ≠ 0 := by
      by_contra hnone
      push Not at hnone
      exact hperiod.1 (hn.totalCents_of_zero (List.forall_mem_map.mpr hnone))
    have hy : y ≠ 0 := by
      obtain ⟨e, -, he⟩ := h0
      exact right_ne_zero_of_mul he
    obtain ⟨count, hcount, h⟩ := bind_eq_ok.mp h
    obtain rfl := hm.periods?_eq hn h0 hcount
    simp only at h
    obtain ⟨w, hw, h⟩ := bind_eq_ok.mp h
    obtain ⟨p, rfl, hp⟩ := hn.powRatio ((Rat.den_intCast _).symm ▸ hpow) hw
    rw [List.map_map] at hp
    obtain ⟨r, rfl, hr⟩ := hm.div hp h
    refine ⟨r, rfl, ?_⟩
    have hcomp : ((· * (Ratio.wholePeriods (x / y) ceiling : ℚ)) ∘ (· * y)) =
        fun e : ℚ => e * (y * Ratio.wholePeriods (x / y) ceiling) := by
      funext e
      exact mul_assoc _ _ _
    rw [hcomp, Literal.zipEntries_map_mul (fun x y z => (mul_sub z x y).symm)] at hr
    rwa [Ratio.modulo_eq x hy]

/-! ## Harmonic combinations -/

theorem map_mul_of_zero (h : ∀ e ∈ es, e = 0) (x y : ℚ) : es.map (· * x) = es.map (· * y) := by
  refine List.map_congr_left fun e he => ?_
  rw [h e he, zero_mul, zero_mul]

/-- An operation that combines the vectors of two exact values. -/
structure CombinesBy (s : Settings) (op : Value → Value → Except Fault Value)
    (op' : ℚ → ℚ → ℚ) : Prop where
  apply : ∀ {a b : Monzo} {es fs : List ℚ} {v : Value}, IsVector s a es → IsVector s b fs →
    op (.exact a) (.exact b) = .ok v →
    ∃ r : Monzo, v = .exact r ∧ IsVector s r (Literal.zipEntries op' es fs)

theorem mul_combinesBy (s : Settings) : CombinesBy s (Value.mul s) (· + ·) := by
  constructor
  intro a b es fs v ha hb h
  obtain ⟨r, hr, rfl⟩ := map_eq_ok.mp h
  exact ⟨r, rfl, ha.mul hb hr⟩

theorem div_combinesBy (s : Settings) : CombinesBy s (Value.div s) (· - ·) :=
  ⟨fun ha hb h => ha.div hb h⟩

/-- The geometric inverse of a multiple of a vector is its multiple by the reciprocal factor over
the square of the vector. -/
theorem inverse_of_multiple (hm : IsVector s m (es.map (· * x))) (hx : x ≠ 0)
    (h : m.geometricInverse s = .ok n) :
    IsVector s n (es.map (· * ((pairing es es)⁻¹ * x⁻¹))) := by
  have hn := hm.geometricInverse h
  rw [pairing_map_mul, List.map_map] at hn
  have hfactor : ((· * (x * x * pairing es es)⁻¹) ∘ (· * x)) =
      fun e : ℚ => e * ((pairing es es)⁻¹ * x⁻¹) := by
    funext e
    simp only [Function.comp_apply]
    field_simp
  rwa [hfactor] at hn

theorem lens {op : Value → Value → Except Fault Value} {op' : ℚ → ℚ → ℚ}
    (hop : CombinesBy s op op') (hop' : ∀ x y z, op' (z * x) (z * y) = z * op' x y)
    (hm : IsVector s m (es.map (· * x))) (hn : IsVector s n (es.map (· * y)))
    (h : Value.lens s op (.exact m) (.exact n) = .ok v) :
    ∃ r : Monzo, v = .exact r ∧
      ∀ z, lensFactor op' x y = some z → IsVector s r (es.map (· * z)) := by
  unfold Value.lens at h
  obtain ⟨d, hd, h⟩ := bind_eq_ok.mp h
  replace hd : m.dot s m = .ok d := hd
  rw [hm.dot hm, pairing_map_mul] at hd
  cases hd
  -- a multiple pairs to zero with itself when the factor is zero, or when the vector is
  by_cases hflat : x * x * pairing es es = 0
  · rw [if_pos hflat] at h
    cases h
    refine ⟨m, rfl, fun z hz => ?_⟩
    rcases mul_eq_zero.mp hflat with hx | hes
    · rw [lensFactor, if_pos (mul_self_eq_zero.mp hx)] at hz
      cases hz
      exact hm
    · rwa [map_mul_of_zero (pairing_self_eq_zero_iff.mp hes) z x]
  · rw [if_neg hflat] at h
    have hx : x ≠ 0 := by
      rintro rfl
      simp at hflat
    have hes : pairing es es ≠ 0 := right_ne_zero_of_mul hflat
    obtain ⟨d, hd, h⟩ := bind_eq_ok.mp h
    replace hd : n.dot s n = .ok d := hd
    rw [hn.dot hn, pairing_map_mul] at hd
    cases hd
    by_cases hy : y = 0
    · rw [if_pos (by rw [hy]; ring)] at h
      cases h
      refine ⟨n, rfl, fun z hz => ?_⟩
      rw [lensFactor, if_neg hx, if_pos hy] at hz
      cases hz
      exact hn
    · rw [if_neg (mul_ne_zero (mul_ne_zero hy hy) hes)] at h
      obtain ⟨v₁, h₁, h⟩ := bind_eq_ok.mp h
      obtain ⟨v₂, h₂, h⟩ := bind_eq_ok.mp h
      obtain ⟨v₃, h₃, h⟩ := bind_eq_ok.mp h
      obtain ⟨m₁, hm₁, rfl⟩ := map_eq_ok.mp h₁
      obtain ⟨m₂, hm₂, rfl⟩ := map_eq_ok.mp h₂
      obtain ⟨m₃, rfl, hm₃⟩ := hop.apply (hm.inverse_of_multiple hx hm₁)
        (hn.inverse_of_multiple hy hm₂) h₃
      rw [Literal.zipEntries_map_mul hop', hop'] at hm₃
      obtain ⟨r, hr, rfl⟩ := map_eq_ok.mp h
      refine ⟨r, rfl, fun z hz => ?_⟩
      rw [lensFactor, if_neg hx, if_neg hy, Literal.harmonic] at hz
      split at hz
      · cases hz
      · next htotal =>
        cases hz
        -- the square of the vector, which both inverses were divided by, is given back
        have hr' := hm₃.inverse_of_multiple (mul_ne_zero (inv_ne_zero hes) htotal) hr
        rwa [mul_inv, inv_inv, inv_mul_cancel_left₀ hes] at hr'

end IsVector

end Monzo

end Intonation
