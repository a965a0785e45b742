import Intonation.Monzo.Basic
import Intonation.Proofs.Prime.Size

/-!
# Bounds on exact values

Whether a value is within the bounds depends on its exponents, its residual and its correction,
but not on the sign of a zero correction. Smaller exponents stay within them. A value exceeds them
by overflow, unless its correction is no number or an exponent has no nearest double or no prime.

## Main definitions

* `Monzo.Coincide`: the same value, up to the sign of a zero correction

## Main statements

* `boundsFault?_eq_none_iff`: the three bounds
* `checked_error_cases`: how a value exceeds them
* `bounded_congr`: values alike are within the bounds together
* `exponentFault?_of_le`: smaller exponents are within the bounds
-/

namespace Intonation

theorem rat_abs_eq (q : ℚ) : q.abs = |q| := by
  rcases le_total 0 q with h | h
  · rw [Rat.abs_of_nonneg h, abs_of_nonneg h]
  · rw [Rat.abs_of_nonpos h, abs_of_nonpos h]

namespace Double

theorem exceeds_of_beq_zero {x : Float} (h : x == 0) {bound : ℚ} (hbound : 0 ≤ bound) :
    exceeds x.abs bound = false := by
  rw [exceeds, toRat?_of_beq_zero (abs_beq_zero h)]
  simpa using hbound

/-- Numbers below the range of doubles have a nearest double. -/
theorem exists_ofRat?_of_abs_le {q : ℚ} (h : |q| ≤ 2 ^ 1023) : ∃ x, ofRat? q = some x := by
  have htop : ratioBits (2 ^ 1023) < infinityBits := by decide +kernel
  rcases eq_or_ne q 0 with rfl | hq
  · exact ⟨0, ofRat?_zero⟩
  · have hbits := ratioBits_le_ratioBits (abs_pos.mpr hq) h
    have habs : ratioBits |q| = quotientBits q.num.natAbs q.den := by
      rw [ratioBits, ← rat_abs_eq, Rat.abs]
      split <;> simp
    rw [ofRat?, if_neg hq, ← habs, if_neg (by omega)]
    exact ⟨_, rfl⟩

end Double

namespace Monzo
open Double

variable {s : Settings} {m n : Monzo}

theorem centsBound_nonneg (s : Settings) : 0 ≤ centsBound s := Nat.cast_nonneg _

/-- The residual and the correction are within the bounds. -/
structure RestBounded (s : Settings) (residual : ℚ) (cents : Float) : Prop where
  not_nan : cents.isNaN = false
  bits_le : Ratio.bits residual ≤ s.absurdExponent
  cents_le : exceeds cents.abs (centsBound s) = false

theorem boundsFault?_eq_none_iff : boundsFault? s m = none ↔
    exponentFault? (centsBound s) Prime.measures m.exps = none ∧
      RestBounded s m.residual m.cents := by
  unfold boundsFault?
  constructor
  · intro h
    split at h
    · cases h
    · next hnan =>
      split at h
      · cases h
      · next hexps =>
        split at h
        · cases h
        · next hbits =>
          split at h
          · cases h
          · next hcents =>
            exact ⟨hexps, by simpa using hnan, not_lt.mp hbits, by simpa using hcents⟩
  · rintro ⟨hexps, hnan, hbits, hcents⟩
    rw [hnan, hexps, hcents]
    simp [not_lt.mpr hbits]

theorem RestBounded.congr {residual : ℚ} {x y : Float} (h : Alike x y)
    (hx : RestBounded s residual x) : RestBounded s residual y := by
  rcases h with rfl | ⟨-, hy⟩
  · exact hx
  · exact ⟨not_isNaN_of_beq_zero hy, hx.bits_le,
      exceeds_of_beq_zero hy (centsBound_nonneg s)⟩

/-- The same value, up to the sign of a zero correction. -/
structure Coincide (m n : Monzo) : Prop where
  time : m.time = n.time
  exps : m.exps = n.exps
  residual : m.residual = n.residual
  cents : Alike m.cents n.cents

theorem Coincide.refl (m : Monzo) : Coincide m m := ⟨rfl, rfl, rfl, .refl _⟩

/-- Values that differ by the sign of a zero correction are within the bounds together. -/
theorem bounded_congr (hexps : m.exps = n.exps) (hres : m.residual = n.residual)
    (hcents : Alike m.cents n.cents) (h : boundsFault? s m = none) : boundsFault? s n = none := by
  rw [boundsFault?_eq_none_iff] at h ⊢
  rw [← hexps, ← hres]
  exact ⟨h.1, h.2.congr hcents⟩

theorem Coincide.isFractional_eq (h : Coincide m n) : m.isFractional = n.isFractional := by
  rw [isFractional, isFractional, isUncorrected, isUncorrected, h.exps, h.cents.beq_zero_eq]

theorem Coincide.ratio_eq (h : Coincide m n) : m.ratio = n.ratio := by
  rw [ratio, ratio, h.exps, h.residual]

/-- A value without correction is within the bounds when its exponents and its residual are. -/
theorem bounded_of_uncorrected (hexps : exponentFault? (centsBound s) Prime.measures m.exps = none)
    (hbits : Ratio.bits m.residual ≤ s.absurdExponent) (hcents : m.cents == 0) :
    boundsFault? s m = none :=
  boundsFault?_eq_none_iff.mpr ⟨hexps, not_isNaN_of_beq_zero hcents, hbits,
    exceeds_of_beq_zero hcents (centsBound_nonneg s)⟩

/-! ## Exponents -/

theorem exponentFault?_nil (bound : ℚ) (primes : List (Nat × Float)) :
    exponentFault? bound primes [] = none := by
  unfold exponentFault?
  rfl

theorem exponentFault?_cons {bound : ℚ} {pm : Nat × Float} {primes : List (Nat × Float)} {e : ℚ}
    {es : List ℚ} : exponentFault? bound (pm :: primes) (e :: es) = none ↔
      (e = 0 ∨ Within pm.2 bound |e|) ∧ exponentFault? bound primes es = none := by
  obtain ⟨p, size⟩ := pm
  rw [exponentFault?, rat_abs_eq]
  by_cases he : e = 0
  · simp [he]
  · rw [if_neg he]
    unfold Within
    cases hx : ofRat? |e| with
    | none => simp [he]
    | some x =>
      cases hex : exceeds (x * size) bound <;> simp [he, hex]

theorem exponentFault?_eq_none_of_zero {bound : ℚ} (primes : List (Nat × Float)) {es : List ℚ}
    (h : ∀ e ∈ es, e = 0) : exponentFault? bound primes es = none := by
  induction es generalizing primes with
  | nil => exact exponentFault?_nil bound primes
  | cons e es ih =>
    have he := h e List.mem_cons_self
    have hes := fun primes => ih primes fun e' he' => h e' (List.mem_cons_of_mem _ he')
    cases primes with
    | nil => rw [exponentFault?, if_pos he, hes]
    | cons pm primes => exact exponentFault?_cons.mpr ⟨.inl he, hes primes⟩

/-- Exponents exceed a bound by overflow, unless one of them has no nearest double or no prime. -/
theorem exponentFault?_cases {bound : ℚ} {primes : List (Nat × Float)} {es : List ℚ} {f : Fault}
    (h : exponentFault? bound primes es = some f) : f.family = .overflow ∨
      (f = .tooLarge ∧ ∃ e ∈ es, ofRat? |e| = none) ∨
      (f = .componentBeyondTable ∧ ∃ e ∈ es.drop primes.length, e ≠ 0) := by
  induction es generalizing primes with
  | nil =>
    rw [exponentFault?_nil] at h
    cases h
  | cons e es ih =>
    -- what goes wrong with the rest of the exponents goes wrong with all of them
    have hrest : ∀ {primes}, exponentFault? bound primes es = some f → f.family = .overflow ∨
        (f = .tooLarge ∧ ∃ x ∈ e :: es, ofRat? |x| = none) ∨
        (f = .componentBeyondTable ∧ ∃ x ∈ es.drop primes.length, x ≠ 0) := fun h =>
      (ih h).imp_right (Or.imp_left fun ⟨hf, x, hx, hnone⟩ =>
        ⟨hf, x, List.mem_cons_of_mem _ hx, hnone⟩)
    cases primes with
    | nil =>
      rw [exponentFault?] at h
      split at h
      · refine (hrest h).imp_right (Or.imp_right fun ⟨hf, x, hx, hne⟩ => ?_)
        exact ⟨hf, x, List.mem_cons_of_mem _ hx, hne⟩
      · next hne =>
        cases h
        exact .inr (.inr ⟨rfl, e, List.mem_cons_self, hne⟩)
    | cons pm primes =>
      rw [exponentFault?, rat_abs_eq] at h
      split at h
      · exact hrest h
      · split at h
        · next hnone =>
          cases h
          exact .inr (.inl ⟨rfl, e, List.mem_cons_self, hnone⟩)
        · split at h
          · cases h
            exact .inl rfl
          · exact hrest h

theorem length_measures : Prime.measures.length = Prime.tableSize := by
  rw [Prime.measures, List.length_map, Prime.length_table]

/-- A value exceeds the bounds by overflow, unless its correction is no number, or an exponent has
no nearest double or no prime. -/
theorem checked_error_cases {f : Fault} (h : checked s m = .error f) : f.family = .overflow ∨
    (f = .invalidCents ∧ m.cents.isNaN = true) ∨
    (f = .tooLarge ∧ ∃ e ∈ m.exps, ofRat? |e| = none) ∨
    (f = .componentBeyondTable ∧ ∃ e ∈ m.exps.drop Prime.tableSize, e ≠ 0) := by
  have hfault : boundsFault? s m = some f := by
    unfold checked at h
    split at h
    · next fault hfault =>
      cases h
      exact hfault
    · cases h
  unfold boundsFault? at hfault
  split at hfault
  · next hnan =>
    cases hfault
    exact .inr (.inl ⟨rfl, hnan⟩)
  · split at hfault
    · next fault hexps =>
      cases hfault
      rw [← length_measures]
      exact (exponentFault?_cases hexps).imp_right .inr
    · split at hfault
      · cases hfault
        exact .inl rfl
      · split at hfault
        · cases hfault
          exact .inl rfl
        · cases hfault

theorem exponentFault?_of_append {bound : ℚ} (primes : List (Nat × Float)) {es fs : List ℚ}
    (h : exponentFault? bound primes (es ++ fs) = none) :
    exponentFault? bound primes es = none := by
  induction es generalizing primes with
  | nil => exact exponentFault?_nil bound primes
  | cons e es ih =>
    rw [List.cons_append] at h
    cases primes with
    | nil =>
      rw [exponentFault?] at h ⊢
      split at h
      · next he =>
        rw [if_pos he]
        exact ih [] h
      · cases h
    | cons pm primes =>
      rw [exponentFault?_cons] at h ⊢
      exact ⟨h.1, ih primes h.2⟩

theorem exponentFault?_append_zeros {bound : ℚ} (primes : List (Nat × Float)) {es fs : List ℚ}
    (h : exponentFault? bound primes es = none) (hfs : ∀ f ∈ fs, f = 0) :
    exponentFault? bound primes (es ++ fs) = none := by
  induction es generalizing primes with
  | nil => exact exponentFault?_eq_none_of_zero primes hfs
  | cons e es ih =>
    rw [List.cons_append]
    cases primes with
    | nil =>
      rw [exponentFault?] at h ⊢
      split at h
      · next he =>
        rw [if_pos he]
        exact ih [] h
      · cases h
    | cons pm primes =>
      rw [exponentFault?_cons] at h ⊢
      exact ⟨h.1, ih primes h.2⟩

theorem one_le_bits (q : ℚ) : 1 ≤ Ratio.bits q := by
  have hden : 1 ≤ Ratio.bitLength q.den := by
    rw [Ratio.bitLength, if_neg q.den_ne_zero]
    omega
  exact hden.trans (le_max_right _ _)

theorem one_le_absurdExponent (h : boundsFault? s m = none) : 1 ≤ s.absurdExponent :=
  (one_le_bits m.residual).trans (boundsFault?_eq_none_iff.mp h).2.bits_le

theorem unity_eq (h : 1 ≤ s.absurdExponent) (count : Nat) :
    unity s count = .ok { exps := List.replicate count 0 } := by
  refine checked_eq_ok_iff.mpr ⟨bounded_of_uncorrected ?_ h zero_beq_zero, rfl⟩
  exact exponentFault?_eq_none_of_zero _ fun e he => List.eq_of_mem_replicate he

/-- Exponents that are smaller, each at its position, are within the bounds. -/
theorem exponentFault?_of_le {bound : ℚ} (hbound : 0 ≤ bound) {primes : List (Nat × Float)}
    (hfull : ∀ pm ∈ primes, IsFull pm.2) {es fs : List ℚ}
    (hle : List.Forall₂ (fun f e => |f| ≤ |e|) fs es)
    (h : exponentFault? bound primes es = none) : exponentFault? bound primes fs = none := by
  induction hle generalizing primes with
  | nil => exact exponentFault?_nil bound primes
  | cons hfe hrest ih =>
    cases primes with
    | nil =>
      rw [exponentFault?] at h ⊢
      split at h
      · next he =>
        rw [he, abs_zero, abs_nonpos_iff] at hfe
        rw [if_pos hfe]
        exact ih (by simp) h
      · cases h
    | cons pm primes =>
      rw [exponentFault?_cons] at h ⊢
      refine ⟨?_, ih (fun pm' hpm' => hfull pm' (List.mem_cons_of_mem _ hpm')) h.2⟩
      have hsize := hfull pm List.mem_cons_self
      rcases h.1 with he | hin
      · rw [he, abs_zero, abs_nonpos_iff] at hfe
        exact .inl hfe
      · exact .inr (hin.of_le hsize hbound (abs_nonneg _) hfe)

/-- Opposite exponents are within the bounds. -/
theorem exponentFault?_map_neg {es : List ℚ}
    (h : exponentFault? (centsBound s) Prime.measures es = none) :
    exponentFault? (centsBound s) Prime.measures (es.map fun e => -e) = none := by
  refine exponentFault?_of_le (centsBound_nonneg s)
    (fun pm hpm => Prime.isFull_of_mem_measures hpm) ?_ h
  rw [List.forall₂_map_left_iff, List.forall₂_same]
  intro e _
  rw [abs_neg]

end Monzo

end Intonation
