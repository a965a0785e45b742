import Intonation.Proofs.FJS.Inflection

/-!
# Rows of inflections in order

A row of inflections in ascending order is determined by how often it inflects by each prime, and
splitting off the inflections of a vector gives the rows in that order.

## Main definitions

* `Inflection.IsRow`: an ascending row by primes from five up
* `Inflections.IsNormal`: two such rows without a common prime

## Main statements

* `IsRow.eq_flatMap`: an ascending row is determined by its counts
* `inflectionsOf_counts`: the rows that are split off a vector of counts
-/

namespace Intonation

variable {flavor : String} {row : List Inflection} {primes : List Nat} {p : Nat}

/-- A row of inflections by primes of the table from five up, in ascending order and of one
flavor. -/
structure Inflection.IsRow (flavor : String) (row : List Inflection) : Prop where
  ascending : row.Pairwise fun a b => a.number ≤ b.number
  prime : ∀ i ∈ row, ∃ p : Nat, i.number = p ∧ p.Prime ∧ 5 ≤ p ∧ p ≤ Prime.tableLimit
  same_flavor : ∀ i ∈ row, i.flavor = flavor

/-- Inflections by ascending rows without a common prime, and without ups and lifts. -/
structure Inflections.IsNormal (flavor : String) (i : Inflections) : Prop where
  superscripts : Inflection.IsRow flavor i.superscripts
  subscripts : Inflection.IsRow flavor i.subscripts
  disjoint : ∀ a ∈ i.superscripts, ∀ b ∈ i.subscripts, a.number ≠ b.number
  ups : i.ups = 0
  lifts : i.lifts = 0

/-- A row is accepted when its flavors are known and its numbers are five and up. -/
theorem Inflection.fault?_eq_none_iff :
    fault? row = none ↔ ∀ i ∈ row, i.flavor ∈ flavors ∧ 5 ≤ i.number := by
  induction row with
  | nil => simp [fault?]
  | cons i row ih =>
    rw [fault?, List.forall_mem_cons, ← ih]
    by_cases hflavor : i.flavor ∈ flavors
    · rw [if_neg (by simpa using hflavor)]
      by_cases hlt : i.number < 5
      · rw [if_pos hlt]
        exact iff_of_false (by simp) fun h => absurd h.1.2 (not_le.mpr hlt)
      · rw [if_neg hlt]
        exact ⟨fun h => ⟨⟨hflavor, not_lt.mp hlt⟩, h⟩, fun h => h.2⟩
    · rw [if_pos (by simpa using hflavor)]
      exact iff_of_false (by simp) fun h => hflavor h.1.1

theorem Inflections.make_eq_iff {i : Inflections} : i.make = .ok i ↔
    ∀ k ∈ i.superscripts ++ i.subscripts, k.flavor ∈ Inflection.flavors ∧ 5 ≤ k.number := by
  rw [List.forall_mem_append, ← Inflection.fault?_eq_none_iff, ← Inflection.fault?_eq_none_iff,
    make]
  split
  · next h => simp [h]
  · next h => simp [h]
  · next hup hdown => simp [hup, hdown]

theorem countOf_eq_zero (h : ∀ i ∈ row, i.number ≠ p) : countOf p row = 0 :=
  List.countP_eq_zero.mpr fun i hi => by simpa using h i hi

theorem exists_of_countOf_ne_zero (h : countOf p row ≠ 0) : ∃ i ∈ row, i.number = p := by
  by_contra hnone
  exact h (countOf_eq_zero fun i hi heq => hnone ⟨i, hi, heq⟩)

namespace Inflection.IsRow

theorem isPrime (h : IsRow flavor row) : ∀ i ∈ row, i.IsPrime := by
  intro i hi
  obtain ⟨p, hnumber, hprime, h5, hle⟩ := h.prime i hi
  obtain ⟨j, hj⟩ := Prime.exists_position (Prime.mem_table.mpr ⟨hprime, hle⟩) h5
  exact ⟨j, p, hj, hnumber⟩

theorem tail {i : Inflection} (h : IsRow flavor (i :: row)) : IsRow flavor row :=
  ⟨(List.pairwise_cons.mp h.ascending).2, fun k hk => h.prime k (List.mem_cons_of_mem _ hk),
    fun k hk => h.same_flavor k (List.mem_cons_of_mem _ hk)⟩

theorem filter (h : IsRow flavor row) (keep : Inflection → Bool) :
    IsRow flavor (row.filter keep) :=
  ⟨h.ascending.sublist List.filter_sublist, fun i hi => h.prime i (List.mem_of_mem_filter hi),
    fun i hi => h.same_flavor i (List.mem_of_mem_filter hi)⟩

/-- The inflections by the least prime stand in front. -/
theorem eq_replicate_append (h : IsRow flavor row) (hle : ∀ i ∈ row, (p : Int) ≤ i.number) :
    row = List.replicate (countOf p row) ⟨p, flavor⟩ ++ row.filter fun i => i.number ≠ (p : Int) := by
  induction row with
  | nil => rfl
  | cons i row ih =>
    obtain ⟨hfirst, -⟩ := List.pairwise_cons.mp h.ascending
    have hrest := ih h.tail fun k hk => hle k (List.mem_cons_of_mem _ hk)
    rw [countOf_cons]
    by_cases hi : i.number = p
    · have hinflection : i = ⟨p, flavor⟩ := by
        rw [← hi, ← h.same_flavor i List.mem_cons_self]
      rw [if_pos hi, List.replicate_succ, List.cons_append,
        List.filter_cons_of_neg (by simpa using hi), ← hrest, hinflection]
    · -- all further primes are larger still
      have hlt : (p : Int) < i.number := lt_of_le_of_ne (hle i List.mem_cons_self) (Ne.symm hi)
      have hne : ∀ k ∈ i :: row, k.number ≠ p := by
        intro k hk
        rcases List.mem_cons.mp hk with rfl | hk
        · exact hi
        · exact (hlt.trans_le (hfirst k hk)).ne'
      rw [if_neg hi, countOf_eq_zero fun k hk => hne k (List.mem_cons_of_mem _ hk),
        List.filter_eq_self.mpr fun k hk => by simpa using hne k hk]
      rfl

/-- An ascending row is determined by how often it inflects by each prime. -/
theorem eq_flatMap (h : IsRow flavor row) (hprimes : primes.Pairwise (· < ·))
    (hmem : ∀ i ∈ row, ∃ p ∈ primes, i.number = (p : Nat)) :
    row = primes.flatMap fun p => List.replicate (countOf p row) ⟨p, flavor⟩ := by
  induction primes generalizing row with
  | nil =>
    rw [List.flatMap_nil, List.eq_nil_iff_forall_not_mem]
    intro i hi
    obtain ⟨p, hp, -⟩ := hmem i hi
    cases hp
  | cons p primes ih =>
    obtain ⟨hless, hprimes⟩ := List.pairwise_cons.mp hprimes
    have hle : ∀ i ∈ row, (p : Int) ≤ i.number := by
      intro i hi
      obtain ⟨q, hq, hnumber⟩ := hmem i hi
      rw [hnumber]
      rcases List.mem_cons.mp hq with rfl | hq
      · exact le_rfl
      · exact_mod_cast (hless q hq).le
    -- the inflections by the first prime come first, and the rest is a row over the other primes
    have hrest := ih (h.filter fun i => i.number ≠ (p : Int)) hprimes fun i hi => by
      obtain ⟨hi, hne⟩ := List.mem_filter.mp hi
      obtain ⟨q, hq, hnumber⟩ := hmem i hi
      rcases List.mem_cons.mp hq with rfl | hq
      · simp [hnumber] at hne
      · exact ⟨q, hq, hnumber⟩
    have hcounts : ∀ q ∈ primes,
        countOf q (row.filter fun i => i.number ≠ (p : Int)) = countOf q row := by
      intro q hq
      rw [countOf, List.countP_filter, countOf]
      refine List.countP_congr fun i _ => ?_
      have hne : (q : Int) ≠ p := by exact_mod_cast (hless q hq).ne'
      by_cases hi : i.number = q <;> simp [hi, hne]
    conv_lhs => rw [h.eq_replicate_append hle, hrest]
    rw [List.flatMap_cons]
    congr 1
    exact List.flatMap_congr fun q hq => by rw [hcounts q hq]

end Inflection.IsRow

/-! ## Splitting inflections off -/

theorem num_of_counts (up down : Nat) :
    ((up : ℚ) - down).den = 1 ∧ ((up : ℚ) - down).num = (up : Int) - down := by
  have hcast : (up : ℚ) - down = ((up - down : Int) : ℚ) := by push_cast; rfl
  rw [hcast]
  exact ⟨Rat.den_intCast _, Rat.num_intCast _⟩

/-- The rows that are split off a vector of counts. -/
theorem inflectionsOf_counts (flavor : String) (primes rest : List Nat) {up down : Nat → Nat}
    (h : ∀ p ∈ primes, up p = 0 ∨ down p = 0) :
    inflectionsOf flavor (primes ++ rest) (primes.map fun p => (up p : ℚ) - down p) = .ok
      (primes.flatMap fun p => List.replicate (up p) ⟨p, flavor⟩,
        primes.flatMap fun p => List.replicate (down p) ⟨p, flavor⟩) := by
  induction primes with
  | nil => simp [inflectionsOf]
  | cons p primes ih =>
    have hrest := ih fun q hq => h q (List.mem_cons_of_mem _ hq)
    have hp := h p List.mem_cons_self
    rw [List.cons_append, List.map_cons, inflectionsOf, hrest]
    show Except.ok _ = _
    rw [(num_of_counts _ _).2, List.flatMap_cons, List.flatMap_cons]
    rcases hp with hzero | hzero
    · simp [hzero]
    · by_cases hup : up p = 0
      · simp [hzero, hup]
      · simp [hzero, Nat.pos_of_ne_zero hup]

end Intonation
