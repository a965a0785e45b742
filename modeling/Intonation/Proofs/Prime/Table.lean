import Intonation.Prime.Table
import Intonation.Proofs.Prime.Sieve

/-!
# The table holds the first primes

The table is the list of the primes up to its limit, of which there are a thousand. It starts with
two and three.

## Main statements

* `mem_table`, `table_pairwise`, `length_table`: the prime table
* `table_eq_cons`: its first primes
-/

namespace Intonation.Prime

/-- The table holds the primes up to its limit. -/
theorem mem_table {p : Nat} : p ∈ table ↔ p.Prime ∧ p ≤ tableLimit := mem_primesUpTo

theorem prime_of_mem_table {p : Nat} (h : p ∈ table) : p.Prime := (mem_table.mp h).1

theorem table_pairwise : table.Pairwise (· < ·) := primesUpTo_pairwise tableLimit

theorem table_nodup : table.Nodup := table_pairwise.imp fun h => h.ne

theorem length_table : table.length = tableSize := by decide +kernel

/-- The first primes are the ones at the first positions. -/
theorem mem_take_iff {position count p : Nat} (h : table[position]? = some p) :
    p ∈ table.take count ↔ position < count := by
  obtain ⟨hlt, rfl⟩ := List.getElem?_eq_some_iff.mp h
  rw [List.mem_take_iff_getElem]
  constructor
  · rintro ⟨i, hi, heq⟩
    rw [table_nodup.getElem_inj_iff] at heq
    omega
  · intro hcount
    exact ⟨position, lt_min hcount hlt, rfl⟩

/-- The table starts with two and three. -/
theorem table_eq_cons : ∃ primes, table = 2 :: 3 :: primes ∧ ∀ p ∈ primes, 5 ≤ p := by
  have h2 : table[0]? = some 2 := by decide +kernel
  have h3 : table[1]? = some 3 := by decide +kernel
  obtain ⟨a, b, primes, hab⟩ : ∃ a b primes, table = a :: b :: primes := by
    cases h : table with
    | nil => simp [h] at h2
    | cons a rest =>
      cases rest with
      | nil => simp [h] at h3
      | cons b primes => exact ⟨a, b, primes, rfl⟩
  rw [hab] at h2 h3
  simp only [List.getElem?_cons_zero, Option.some.injEq, List.getElem?_cons_succ] at h2 h3
  subst h2 h3
  refine ⟨primes, hab, ?_⟩
  intro p hp
  have hsorted := table_pairwise
  rw [hab] at hsorted
  have h4 : 3 < p := (List.pairwise_cons.mp (List.pairwise_cons.mp hsorted).2).1 p hp
  have hprime : p.Prime := prime_of_mem_table (by simp [hab, hp])
  by_contra hlt
  have h5 : p = 4 := by omega
  subst h5
  revert hprime
  decide

end Intonation.Prime
