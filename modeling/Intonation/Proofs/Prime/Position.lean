import Intonation.Monzo.Basis
import Intonation.Proofs.Monzo.Canonical
import Intonation.Proofs.Outcome

/-!
# Primes at their positions

A prime of the table factors into itself. Its exponents are a row of zeros that ends in a one, at
the position of the prime.

## Main definitions

* `Prime.unit`: the exponents of the prime at a position

## Main statements

* `Prime.index?_eq_some_iff`: the position of a prime
* `Prime.limit?_prime`, `Monzo.factorCompletely_prime`: the factorization of a prime
-/

namespace Intonation

namespace Prime

/-- The exponents of the prime at a position. -/
def unit (position : Nat) : List Int := List.replicate position 0 ++ [1]

theorem length_unit (position : Nat) : (unit position).length = position + 1 := by simp [unit]

theorem unit_succ (position : Nat) : unit (position + 1) = 0 :: unit position := by
  rw [unit, List.replicate_succ, List.cons_append, unit]

theorem lt_tableSize {position p : Nat} (h : table[position]? = some p) :
    position < tableSize := by
  rw [← length_table]
  exact (List.getElem?_eq_some_iff.mp h).1

theorem mem_of_getElem? {position p : Nat} (h : table[position]? = some p) : p ∈ table :=
  List.mem_of_getElem? h

/-- A position determines its prime, and the other way round. -/
theorem position_unique {i j p : Nat} (hi : table[i]? = some p) (hj : table[j]? = some p) :
    i = j := by
  obtain ⟨hi', rfl⟩ := List.getElem?_eq_some_iff.mp hi
  obtain ⟨hj', hp⟩ := List.getElem?_eq_some_iff.mp hj
  exact ((table_nodup.getElem_inj_iff).mp hp).symm

theorem index?_eq_some_iff {n : Int} {position : Nat} :
    index? n = some position ↔ ∃ p : Nat, n = p ∧ table[position]? = some p := by
  unfold index?
  constructor
  · intro h
    obtain ⟨hlt, heq, -⟩ := List.findIdx?_eq_some_iff_getElem.mp h
    exact ⟨table[position], (eq_of_beq heq).symm, List.getElem?_eq_getElem hlt⟩
  · rintro ⟨p, rfl, h⟩
    obtain ⟨hlt, rfl⟩ := List.getElem?_eq_some_iff.mp h
    refine List.findIdx?_eq_some_iff_getElem.mpr ⟨hlt, by simp, ?_⟩
    intro j hj heq
    have heq' : table[j] = table[position] := by simpa using heq
    exact hj.ne ((table_nodup.getElem_inj_iff).mp heq')

theorem index?_two : index? 2 = some 0 := by
  obtain ⟨primes, h, -⟩ := table_eq_cons
  exact index?_eq_some_iff.mpr ⟨2, rfl, by rw [h]; rfl⟩

theorem index?_three : index? 3 = some 1 := by
  obtain ⟨primes, h, -⟩ := table_eq_cons
  exact index?_eq_some_iff.mpr ⟨3, rfl, by rw [h]; rfl⟩

/-- The primes from five up have positions from two up. -/
theorem exists_position {p : Nat} (hp : p ∈ table) (h5 : 5 ≤ p) :
    ∃ j, table[j + 2]? = some p := by
  obtain ⟨primes, htable, -⟩ := table_eq_cons
  rw [htable] at hp ⊢
  have hmem : p ∈ primes := by
    rcases List.mem_cons.mp hp with rfl | hp
    · omega
    · rcases List.mem_cons.mp hp with rfl | hp
      · omega
      · exact hp
  obtain ⟨j, hj, rfl⟩ := List.getElem_of_mem hmem
  exact ⟨j, by simp [hj]⟩

/-- No position is beyond the largest one. -/
theorem le_foldl_max (positions : List Nat) (start : Nat) :
    start ≤ positions.foldl max start ∧ ∀ i ∈ positions, i ≤ positions.foldl max start := by
  induction positions generalizing start with
  | nil => simp
  | cons i positions ih =>
    obtain ⟨hstart, hle⟩ := ih (max start i)
    exact ⟨(le_max_left _ _).trans hstart, List.forall_mem_cons.mpr
      ⟨(le_max_right _ _).trans hstart, hle⟩⟩

/-! ## Dividing out -/

theorem strip_of_not_dvd {q n : Nat} (h : ¬ q ∣ n) : strip q n = (n, 0) := by
  rw [strip, dif_neg]
  rintro ⟨-, -, hmod⟩
  exact h (Nat.dvd_of_mod_eq_zero hmod)

theorem strip_self {p : Nat} (hp : p.Prime) : strip p p = (1, 1) := by
  obtain ⟨hmul, hndvd⟩ := strip_spec hp.two_le hp.pos
  generalize strip p p = rest at hmul hndvd ⊢
  obtain ⟨left, count⟩ := rest
  simp only at hmul hndvd
  -- what is left divides the prime, so that it is one
  rcases (Nat.dvd_prime hp).mp ⟨_, hmul.symm⟩ with rfl | rfl
  · rw [one_mul] at hmul
    have hcount := Nat.pow_right_injective hp.two_le (hmul.trans (pow_one p).symm)
    rw [hcount]
  · exact absurd dvd_rfl hndvd

/-- Looking for a prime stops behind it. -/
theorem limitFrom_prime {primes : List Nat} (hd : Distinct primes) {position p : Nat}
    (h : primes[position]? = some p) (start limit : Nat) :
    limitFrom primes start limit p 1 = some (start + position + 1) := by
  have hp : p.Prime := hd.prime p (List.mem_of_getElem? h)
  have hone : ¬ (p = 1 ∧ (1 : Nat) = 1) := fun h1 => hp.ne_one h1.1
  induction primes generalizing position start limit with
  | nil => simp at h
  | cons q primes ih =>
    have hq : q.Prime := hd.head
    rw [limitFrom, if_neg hone]
    have hq1 : strip q 1 = (1, 0) := strip_of_not_dvd hq.not_dvd_one
    cases position with
    | zero =>
      obtain rfl : q = p := by simpa using h
      rw [strip_self hq, hq1]
      cases primes <;> simp [limitFrom]
    | succ position =>
      rw [List.getElem?_cons_succ] at h
      have hne : p ≠ q := hd.head_ne (List.mem_of_getElem? h)
      have hndvd : ¬ q ∣ p := fun hdvd => hne ((Nat.prime_dvd_prime_iff_eq hq hp).mp hdvd).symm
      rw [strip_of_not_dvd hndvd, hq1]
      simp only [Nat.add_zero, lt_irrefl, if_false]
      rw [ih hd.tail h]
      congr 1
      omega

theorem limit?_prime {position p : Nat} (h : table[position]? = some p) :
    limit? p = some (position + 1) := by
  have hlimit := limitFrom_prime distinct_table h 0 0
  rw [Nat.zero_add] at hlimit
  rw [limit?, Rat.num_natCast, Rat.den_natCast, Int.natAbs_natCast, hlimit]

theorem powerProduct_unit {primes : List Nat} {position p : Nat}
    (h : primes[position]? = some p) : powerProduct primes (unit position) = p := by
  induction primes generalizing position with
  | nil => simp at h
  | cons q primes ih =>
    cases position with
    | zero =>
      obtain rfl : q = p := by simpa using h
      simp [unit, powerProduct_cons]
    | succ position =>
      rw [List.getElem?_cons_succ] at h
      rw [unit_succ, powerProduct_cons, ih h, zpow_zero, one_mul]

theorem split_prime {position p : Nat} (h : table[position]? = some p) :
    split (table.take (position + 1)) p = (unit position, 1) := by
  have hlt := lt_tableSize h
  have hlen : (table.take (position + 1)).length = position + 1 := by
    rw [List.length_take, length_table]
    omega
  have htake : (table.take (position + 1))[position]? = some p := by
    rw [List.getElem?_take_of_lt (by omega), h]
  refine split_eq_of_eq_mul (distinct_table.take _) ?_ one_ne_zero (.one _) ?_
  · rw [length_unit, hlen]
  · rw [one_mul, powerProduct_unit htake]

end Prime

namespace Monzo
open Intonation.Prime

theorem factorCompletely_prime {position p : Nat} (h : table[position]? = some p) :
    factorCompletely ((p : Int) : ℚ) = .ok (unit position) := by
  have hp : (p : ℚ) ≠ 0 := by exact_mod_cast (prime_of_mem_table (mem_of_getElem? h)).ne_zero
  have hlimit : primeLimit ((p : Int) : ℚ) = .ok (position + 1) := by
    rw [Int.cast_natCast, primeLimit, if_neg hp, limit?_prime h]
  have hfactor : factor (position + 1) ((p : Int) : ℚ) = .ok (unit position, 1) := by
    rw [Int.cast_natCast]
    exact factor_eq_ok_iff.mpr ⟨lt_tableSize h, (split_prime h).symm⟩
  refine bind_eq_ok.mpr ⟨_, hlimit, bind_eq_ok.mpr ⟨_, hfactor, ?_⟩⟩
  exact if_pos rfl

end Monzo

end Intonation
