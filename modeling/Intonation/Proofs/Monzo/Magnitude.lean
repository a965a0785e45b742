import Intonation.Proofs.Monzo.Spread

/-!
# How large exponents are

Under the default bounds, exponents are small numbers, and so are the exponents of primes in a
residual. Widening values and multiplying them therefore fails by overflow alone: no exponent on
the way is too large for a double.

## Main statements

* `Prime.abs_le_of_mem_split`: exponents in a ratio are no larger than its bits
* `abs_le_of_bounded`: exponents within the default bounds
* `family_of_checked`, `family_of_mul`: faults are overflows
-/

namespace Intonation
open Double

theorem Ratio.padicValNat_le_bitLength {p : Nat} (hp : p.Prime) (n : Nat) :
    padicValNat p n ≤ bitLength n := by
  have := Fact.mk hp
  rcases Nat.eq_zero_or_pos n with rfl | hn
  · simp
  · calc padicValNat p n ≤ Nat.log p n := padicValNat_le_nat_log n
      _ ≤ Nat.log 2 n := Nat.log_anti_left one_lt_two hp.two_le
      _ ≤ bitLength n := by
        rw [bitLength, if_neg hn.ne', Nat.log2_eq_log_two]
        exact Nat.le_succ _

/-- The exponents of primes in a ratio are no larger than the ratio has bits. -/
theorem Prime.abs_le_of_mem_split {primes : List Nat} (h : Distinct primes) (q : ℚ) :
    ∀ e ∈ (split primes q).1, |(e : ℚ)| ≤ Ratio.bits q := by
  by_cases hq : q = 0
  · intro e he
    rw [split, if_pos hq] at he
    obtain ⟨p, -, rfl⟩ := List.mem_map.mp he
    rw [Int.cast_zero, abs_zero]
    exact Nat.cast_nonneg _
  · intro e he
    rw [← map_padicValRat_split h hq] at he
    obtain ⟨p, hp, rfl⟩ := List.mem_map.mp he
    have hnum := Ratio.padicValNat_le_bitLength (h.prime p hp) q.num.natAbs
    have hden := Ratio.padicValNat_le_bitLength (h.prime p hp) q.den
    have hbits : |padicValRat p q| ≤ Ratio.bits q := by
      rw [padicValRat_def, padicValInt, Ratio.bits, abs_le]
      omega
    exact_mod_cast hbits

namespace Monzo

variable {s : Settings} {a b m n : Monzo} {es : List ℚ} {count : Nat} {f : Fault} {bound c : ℚ}

/-! ## Exponents within bounds -/

/-- Exponents within a bound are no larger than any double beyond the bound. -/
theorem abs_le_of_exponentFault? (hc : 0 < c) (hexact : ratioOf (ratioBits c) = c)
    (hbound : bound < c) {primes : List (Nat × Float)} (hfull : ∀ pm ∈ primes, IsFull pm.2)
    (h : exponentFault? bound primes es = none) : ∀ e ∈ es, |e| ≤ c := by
  induction es generalizing primes with
  | nil => simp
  | cons e es ih =>
    cases primes with
    | nil =>
      rw [exponentFault?] at h
      split at h
      · next he =>
        rw [List.forall_mem_cons, he, abs_zero]
        exact ⟨hc.le, ih (by simp) h⟩
      · cases h
    | cons pm primes =>
      rw [exponentFault?_cons] at h
      obtain ⟨hhead, htail⟩ := h
      rw [List.forall_mem_cons] at hfull ⊢
      refine ⟨?_, ih hfull.2 htail⟩
      rcases hhead with rfl | hwithin
      · rw [abs_zero]
        exact hc.le
      · exact hwithin.le hfull.1 hc hexact hbound

theorem centsBound_lt (h : s.absurdExponent = ({} : Settings).absurdExponent) :
    centsBound s < 2 ^ 22 := by
  rw [centsBound, h]
  norm_num

/-- Exponents within the default bounds. -/
theorem abs_le_of_bounded (hdefault : s.absurdExponent = ({} : Settings).absurdExponent)
    (h : boundsFault? s m = none) : ∀ e ∈ m.exps, |e| ≤ 2 ^ 22 :=
  abs_le_of_exponentFault? (by norm_num) (by decide +kernel) (centsBound_lt hdefault)
    (fun _ => Prime.isFull_of_mem_measures) (boundsFault?_eq_none_iff.mp h).1

/-! ## Faults of small exponents -/

/-- A value of small exponents without correction exceeds the bounds by overflow alone. -/
theorem family_of_checked (hlen : n.components ≤ Prime.tableSize)
    (hsmall : ∀ e ∈ n.exps, |e| ≤ 2 ^ 60) (hcents : n.cents == 0) (h : checked s n = .error f) :
    f.family = .overflow := by
  rcases checked_error_cases h with hover | ⟨-, hnan⟩ | ⟨-, e, he, hnone⟩ | ⟨-, e, he, -⟩
  · exact hover
  · rw [not_isNaN_of_beq_zero hcents] at hnan
    cases hnan
  · obtain ⟨x, hx⟩ := exists_ofRat?_of_abs_le (q := |e|)
      (by rw [abs_abs]; exact (hsmall e he).trans (pow_le_pow_right₀ one_le_two (by norm_num)))
    rw [hx] at hnone
    cases hnone
  · rw [List.drop_eq_nil_of_le hlen] at he
    cases he

/-! ## Widening and products -/

/-- Adding whole numbers to exponents adds their sizes at most. -/
theorem abs_le_of_mem_addExponents {x y : ℚ} (hx : 0 ≤ x) (hy : 0 ≤ y) {es : List ℚ}
    {ns : List Int} (hes : ∀ e ∈ es, |e| ≤ x) (hns : ∀ k ∈ ns, |(k : ℚ)| ≤ y) :
    ∀ e ∈ addExponents es ns, |e| ≤ x + y := by
  induction es generalizing ns with
  | nil =>
    rw [addExponents_nil_left, wholes]
    intro e he
    obtain ⟨k, hk, rfl⟩ := List.mem_map.mp he
    exact (hns k hk).trans (le_add_of_nonneg_left hx)
  | cons e es ih =>
    cases ns with
    | nil =>
      rw [addExponents_nil]
      exact fun e' he' => (hes e' he').trans (le_add_of_nonneg_right hy)
    | cons k ns =>
      rw [List.forall_mem_cons] at hes hns
      rw [addExponents, List.forall_mem_cons]
      exact ⟨(abs_add_le _ _).trans (add_le_add hes.1 hns.1), ih hes.2 hns.2⟩

section
variable (hdefault : s.absurdExponent = ({} : Settings).absurdExponent)
include hdefault

/-- Widening a value over the primes of the table fails by overflow alone. -/
theorem family_of_widen (hm : boundsFault? s m = none) (hcents : m.cents == 0)
    (hlen : m.components ≤ Prime.tableSize) (hcount : count ≤ Prime.tableSize)
    (h : m.widen s count = .error f) : f.family = .overflow := by
  unfold widen at h
  split at h
  · have hfactor : factor count m.residual = .ok (Prime.split (Prime.table.take count) m.residual) :=
      factor_eq_ok_iff.mpr ⟨hcount, rfl⟩
    rw [grow, hfactor] at h
    replace h : checked s { m with
        exps := addExponents m.exps (Prime.split (Prime.table.take count) m.residual).1
        residual := (Prime.split (Prime.table.take count) m.residual).2 } = .error f := h
    have hsplit := Prime.abs_le_of_mem_split (Prime.distinct_table.take count) m.residual
    have hbits : (Ratio.bits m.residual : ℚ) ≤ 2 ^ 22 := by
      have hle := (boundsFault?_eq_none_iff.mp hm).2.bits_le
      rw [hdefault] at hle
      exact (Nat.cast_le.mpr hle).trans (by norm_num)
    have hsum := abs_le_of_mem_addExponents (by norm_num) (by norm_num)
      (abs_le_of_bounded hdefault hm) fun k hk => (hsplit k hk).trans hbits
    refine family_of_checked ?_ ?_ ?_ h
    · obtain ⟨hlength, -, -⟩ := Prime.split_spec (Prime.distinct_table.take count) m.residual
      rw [length_take_table hcount] at hlength
      show (addExponents m.exps _).length ≤ _
      rw [length_addExponents, hlength]
      exact max_le hlen hcount
    · exact fun e he => (hsum e he).trans (by norm_num)
    · exact hcents
  · cases h

/-- Multiplying a value by a vector fails by overflow alone. -/
theorem family_of_mul (ha : boundsFault? s a = none) (hcents : a.cents == 0)
    (hlen : a.components ≤ Prime.tableSize) (hb : b.IsVector s es)
    (hes : es.length ≤ Prime.tableSize) (h : a.mul s b = .error f) : f.family = .overflow := by
  rw [mul, align] at h
  rw [← hb.components] at hes
  cases hc : a.widen s b.components with
  | error fault =>
    rw [hc] at h
    cases h
    exact family_of_widen hdefault ha hcents hlen hes hc
  | ok c =>
    obtain ⟨d, hd⟩ := hb.exists_widen hlen
    rw [hc, hd] at h
    have hd' := hb.widen hd
    obtain ⟨-, -, hccents⟩ := parts_of_widen hc
    have hsmallc := abs_le_of_bounded hdefault (bounded_of_widen ha hc)
    have hsmalld := abs_le_of_bounded hdefault hd'.bounded
    refine family_of_checked ?_ ?_ ?_ h
    · show (c.exps.zipWith (· + ·) d.exps).length ≤ _
      rw [List.length_zipWith]
      exact (min_le_left _ _).trans ((components_of_widen hc).trans_le (max_le hlen hes))
    · show ∀ e ∈ c.exps.zipWith (· + ·) d.exps, |e| ≤ 2 ^ 60
      intro e he
      obtain ⟨k, hk, rfl⟩ := List.mem_iff_getElem.mp he
      rw [List.getElem_zipWith]
      refine (abs_add_le _ _).trans ?_
      have h1 := hsmallc _ (List.getElem_mem (by rw [List.length_zipWith] at hk; omega) (n := k))
      have h2 := hsmalld _ (List.getElem_mem (by rw [List.length_zipWith] at hk; omega) (n := k))
      linarith
    · exact add_beq_zero (hccents ▸ hcents) hd'.uncorrected

end

end Monzo

end Intonation
