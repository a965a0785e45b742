import Intonation.Proofs.FJS.Rows
import Intonation.Proofs.FJS.Skeleton

/-!
# Splitting values into names and inflections

A value splits into the commas of its primes and a vector of twos and threes. The split of a
vector that was put together from twos and threes and from the commas of normal inflections gives
both of them back.

## Main statements

* `of_inflectionsOf`: the rows that are split off are rows by primes
* `of_skeletonOf`: what is known of a value that splits
* `exists_skeletonOf`: a vector put together splits into what it was put together from
-/

namespace Intonation
open Double Literal Monzo

variable {s : Settings} {m n base : Monzo} {flavor : String} {memo memo' : CommaMemo}
  {es cs : List ℚ} {i : Inflections} {v : Skeleton}

/-! ## Giving up -/

theorem Memoized.run_giveUp {α : Type} {x : Memoized (Option α)} : (giveUp x).run.run memo =
    match x.run.run memo with
    | (.ok found, memo') => (.ok found, memo')
    | (.error fault, memo') =>
      if fault.isArithmetic then (.ok none, memo') else (.error fault, memo') := by
  unfold giveUp
  rw [run_tryCatch]
  rcases x.run.run memo with ⟨outcome, rest⟩
  cases outcome with
  | ok found => rfl
  | error fault =>
    simp only
    split <;> rfl

theorem Memoized.returns_giveUp {α : Type} {x : Memoized (Option α)} {a : α} :
    (giveUp x).Returns memo (some a) memo' ↔ x.Returns memo (some a) memo' := by
  unfold Returns
  rw [run_giveUp]
  rcases x.run.run memo with ⟨outcome, rest⟩
  cases outcome with
  | ok found => rfl
  | error fault =>
    -- a fault gives nothing up but the name, or it stays a fault
    simp only
    split <;> constructor <;> intro h <;> cases h

/-! ## Folding -/

namespace Monzo

theorem components_le_of_folded (h : m.folded s = .ok n) : m.components ≤ n.components := by
  unfold folded at h
  split at h
  · cases h
    exact le_rfl
  · split at h
    · cases h
    · next limit _ =>
      obtain ⟨result, hresult, h⟩ := bind_eq_ok.mp h
      split at h
      · cases h
        unfold resize at hresult
        rw [if_neg (not_lt.mpr (le_max_right _ _))] at hresult
        split at hresult
        · obtain ⟨parts, -, hresult⟩ := bind_eq_ok.mp hresult
          obtain ⟨-, rfl⟩ := checked_eq_ok_iff.mp hresult
          show m.exps.length ≤ (addExponents m.exps parts.1).length
          rw [length_addExponents]
          exact le_max_left _ _
        · obtain ⟨-, rfl⟩ := checked_eq_ok_iff.mp hresult
          exact le_rfl
      · cases h

end Monzo

/-! ## Rows -/

/-- The rows that are split off inflect by the primes at hand. -/
theorem of_inflectionsOf {primes : List Nat} {up down : List Inflection}
    (h : inflectionsOf flavor primes es = .ok (up, down)) :
    es.length ≤ primes.length ∧ (∀ i ∈ up, ∃ p ∈ primes, i.number = (p : Nat)) ∧
      ∀ i ∈ down, ∃ p ∈ primes, i.number = (p : Nat) := by
  induction es generalizing primes up down with
  | nil =>
    rw [inflectionsOf] at h
    cases h
    simp
  | cons e es ih =>
    cases primes with
    | nil => cases h
    | cons p primes =>
      rw [inflectionsOf] at h
      obtain ⟨⟨up', down'⟩, hrest, h⟩ := bind_eq_ok.mp h
      obtain ⟨hlen, hup, hdown⟩ := ih hrest
      have hrow : ∀ i ∈ List.replicate e.num.natAbs (Inflection.mk p flavor),
          ∃ q ∈ p :: primes, i.number = (q : Nat) := by
        intro i hi
        rw [List.eq_of_mem_replicate hi]
        exact ⟨p, List.mem_cons_self, rfl⟩
      have hcons : ∀ {row : List Inflection}, (∀ i ∈ row, ∃ q ∈ primes, i.number = (q : Nat)) →
          ∀ i ∈ row, ∃ q ∈ p :: primes, i.number = (q : Nat) := by
        intro row hall i hi
        obtain ⟨q, hq, hnumber⟩ := hall i hi
        exact ⟨q, List.mem_cons_of_mem _ hq, hnumber⟩
      have hsplit := Except.ok.inj h
      refine ⟨Nat.succ_le_succ hlen, ?_⟩
      split at hsplit
      · cases hsplit
        exact ⟨List.forall_mem_append.mpr ⟨hrow, hcons hup⟩, hcons hdown⟩
      · cases hsplit
        exact ⟨hcons hup, List.forall_mem_append.mpr ⟨hrow, hcons hdown⟩⟩

theorem Inflection.isPrime_of_mem_drop {k : Inflection}
    (h : ∃ p ∈ Prime.table.drop 2, k.number = (p : Nat)) : k.IsPrime := by
  obtain ⟨p, hp, hnumber⟩ := h
  obtain ⟨j, hj⟩ := List.getElem?_of_mem hp
  rw [List.getElem?_drop, Nat.add_comm] at hj
  exact ⟨j, p, hj, hnumber⟩

/-! ## Splitting -/

/-- What is known of a value that splits into twos and threes and inflections. -/
structure Splits (s : Settings) (m base : Monzo) (i : Inflections) : Prop where
  uncorrected : m.cents == 0
  time : m.time = 0
  residual_pos : 0 < m.residual
  components_le : m.components ≤ Prime.tableSize
  flat : ∀ e ∈ base.exps.drop 2, e = 0
  base_residual : base.residual = 1
  ups : i.ups = 0
  lifts : i.lifts = 0
  commas : ∃ (c : Monzo) (cs : List ℚ), c.IsVector s cs ∧
    Commas s i.superscripts i.subscripts cs ∧ m.div s c = .ok (.exact base)

theorem of_skeletonOf (hs : s.Valid) (hmemo : memo.Sound)
    (h : (skeletonOf s m flavor).Returns memo (some (base, i)) memo') :
    Splits s m base i ∧ memo'.Sound := by
  unfold skeletonOf at h
  split at h
  · next hspell =>
    simp only [isSpellable, Bool.and_eq_true, isUncorrected, isScalar, decide_eq_true_eq] at hspell
    obtain ⟨⟨⟨hcents, htime⟩, hpos⟩, -⟩ := hspell
    obtain ⟨found, rest, hfound, h⟩ := Memoized.returns_bind.mp h
    cases found with
    | none => exact absurd (Memoized.returns_pure.mp h).1 (by simp)
    | some u =>
      obtain ⟨value, raised, lowered⟩ := u
      cases value with
      | real a => exact absurd (Memoized.returns_pure.mp h).1 (by simp)
      | exact base' =>
        simp only at h
        split at h
        · next hflat =>
          obtain ⟨heq, rfl⟩ := Memoized.returns_pure.mp h
          cases heq
          rw [Bool.and_eq_true, decide_eq_true_eq] at hflat
          rw [Memoized.returns_giveUp, Memoized.returns_map] at hfound
          obtain ⟨u, hu, heq⟩ := hfound
          cases heq
          obtain ⟨vector, rest, hvector, hu⟩ := Memoized.returns_bind.mp hu
          obtain ⟨hfolded, rfl⟩ := Memoized.returns_ofExcept.mp hvector
          obtain ⟨⟨up, down⟩, rest, hrows, hu⟩ := Memoized.returns_bind.mp hu
          obtain ⟨hsplit, rfl⟩ := Memoized.returns_ofExcept.mp hrows
          obtain ⟨commas, rest, hcommas, hu⟩ := Memoized.returns_bind.mp hu
          obtain ⟨quotient, rest, hquotient, hu⟩ := Memoized.returns_bind.mp hu
          obtain ⟨hdiv, rfl⟩ := Memoized.returns_ofExcept.mp hquotient
          obtain ⟨heq, rfl⟩ := Memoized.returns_pure.mp hu
          cases heq
          obtain ⟨hlen, hup, hdown⟩ := of_inflectionsOf hsplit
          obtain ⟨c, cs, rfl, hc, hrows, hmemo'⟩ := Commas.of_inflection hs hmemo
            (fun k hk => Inflection.isPrime_of_mem_drop (hup k hk))
            (fun k hk => Inflection.isPrime_of_mem_drop (hdown k hk)) hcommas
          have hcomponents := components_le_of_folded hfolded
          rw [List.length_drop, List.length_drop, Prime.length_table] at hlen
          refine ⟨⟨hcents, htime, hpos, ?_, ?_, hflat.2, rfl, rfl, c, cs, hc, hrows, hdiv⟩, hmemo'⟩
          · unfold components at *
            have : 2 ≤ Prime.tableSize := by simp [Prime.tableSize]
            omega
          · simpa [isFlat] using hflat.1
        · exact absurd (Memoized.returns_pure.mp h).1 (by simp)
  · exact absurd (Memoized.returns_pure.mp h).1 (by simp)

/-! ## Putting together -/

theorem Skeleton.length_exps (v : Skeleton) : v.exps.length = 2 := rfl

theorem zipEntries_sub_add (hlen : 2 ≤ cs.length) :
    zipEntries (· - ·) (zipEntries (· + ·) v.exps cs) cs = padded cs.length v.exps := by
  have hself : ∀ ds : List ℚ, zipEntries (· - ·) ds ds = List.replicate ds.length 0 := by
    intro ds
    induction ds with
    | nil => exact zipEntries_nil
    | cons d ds ih => rw [zipEntries, ih, sub_self, List.length_cons, List.replicate_succ]
  obtain ⟨c, d, rest, rfl⟩ : ∃ c d rest, cs = c :: d :: rest := by
    rcases cs with _ | ⟨c, _ | ⟨d, rest⟩⟩
    · cases hlen
    · exact absurd hlen (by simp)
    · exact ⟨c, d, rest, rfl⟩
  simp only [Skeleton.exps, zipEntries, zipEntries_nil_left, zero_add, List.map_id', hself,
    add_sub_cancel_right, List.length_cons, padded_succ_cons, padded_nil]

namespace Inflections.IsNormal

variable (h : i.IsNormal flavor) (hc : Commas s i.superscripts i.subscripts cs)

include h in
theorem count_eq_zero (p : Nat) : countOf p i.superscripts = 0 ∨ countOf p i.subscripts = 0 := by
  by_contra hboth
  push Not at hboth
  obtain ⟨a, ha, hap⟩ := exists_of_countOf_ne_zero hboth.1
  obtain ⟨b, hb, hbp⟩ := exists_of_countOf_ne_zero hboth.2
  exact h.disjoint a ha b hb (hap.trans hbp.symm)

include hc in
/-- Beyond twos and threes, the entries count the inflections. -/
theorem drop_eq (v : Skeleton) : (zipEntries (· + ·) v.exps cs).drop 2 =
    ((Prime.table.drop 2).take (cs.length - 2)).map fun p =>
      (countOf p i.superscripts : ℚ) - countOf p i.subscripts := by
  have hlen : (zipEntries (· + ·) v.exps cs).length = cs.length := by
    have := hc.two_le_length
    rw [length_zipEntries, v.length_exps]
    omega
  have hle := hc.length_le_tableSize
  apply List.ext_getElem
  · rw [List.length_drop, hlen, List.length_map, List.length_take, List.length_drop,
      Prime.length_table]
    omega
  · intro k hk _
    rw [List.length_drop, hlen] at hk
    have hq : k + 2 < Prime.table.length := by
      rw [Prime.length_table]
      omega
    have hcount := hc.getD_eq (List.getElem?_eq_getElem hq)
    have hentry : (zipEntries (· + ·) v.exps cs).getD (k + 2) 0 = cs.getD (k + 2) 0 := by
      rw [getD_zipEntries (add_zero 0)]
      exact zero_add _
    rw [hcount, List.getD_eq_getElem?_getD, List.getElem?_eq_getElem (by omega)] at hentry
    rw [Option.getD_some] at hentry
    simp only [List.getElem_drop, List.getElem_map, List.getElem_take, Nat.add_comm 2 k]
    exact hentry

include h hc in
/-- The rows split off the entries beyond twos and threes are the inflections. -/
theorem inflectionsOf_eq (v : Skeleton) :
    inflectionsOf flavor (Prime.table.drop 2) ((zipEntries (· + ·) v.exps cs).drop 2) =
      .ok (i.superscripts, i.subscripts) := by
  have hsorted : ((Prime.table.drop 2).take (cs.length - 2)).Pairwise (· < ·) :=
    Prime.table_pairwise.sublist ((List.take_sublist _ _).trans (List.drop_sublist _ _))
  have hmem : ∀ k : Inflection, k.IsPrime → (k ∈ i.superscripts ∨ k ∈ i.subscripts) →
      ∃ p ∈ (Prime.table.drop 2).take (cs.length - 2), k.number = (p : Nat) := by
    rintro k ⟨j, p, hp, hnumber⟩ hk
    have hlt := hc.lt_length hp hk hnumber
    refine ⟨p, List.mem_of_getElem? (i := j) ?_, hnumber⟩
    rw [List.getElem?_take_of_lt (by omega), List.getElem?_drop, Nat.add_comm, hp]
  have hup := h.superscripts.eq_flatMap hsorted fun k hk =>
    hmem k (h.superscripts.isPrime k hk) (.inl hk)
  have hdown := h.subscripts.eq_flatMap hsorted fun k hk =>
    hmem k (h.subscripts.isPrime k hk) (.inr hk)
  have hcounts := inflectionsOf_counts flavor ((Prime.table.drop 2).take (cs.length - 2))
    ((Prime.table.drop 2).drop (cs.length - 2)) fun p _ => h.count_eq_zero p
  rw [List.take_append_drop, ← hup, ← hdown] at hcounts
  rw [drop_eq hc v, hcounts]

include hc in
/-- Commas leave whole exponents beyond twos and threes. -/
theorem isSpellable_of_commas (hm : m.IsVector s (zipEntries (· + ·) v.exps cs)) :
    isSpellable m = true := by
  have hwhole : (m.exps.drop 2).all fun e => e.den = 1 := by
    rw [hm.exps, drop_eq hc v, List.all_map, List.all_eq_true]
    exact fun p _ => decide_eq_true (num_of_counts _ _).1
  rw [isSpellable, hm.isUncorrected, hm.isScalar, hm.residual, hwhole]
  rfl

include h hc in
/-- Twos and threes with the commas of normal inflections split into both again. -/
theorem exists_skeletonOf (hs : s.Valid) (hmemo : memo.Sound) (hn : n.IsVector s v.exps)
    (hm : m.IsVector s (zipEntries (· + ·) v.exps cs)) :
    ∃ base memo', (skeletonOf s m flavor).Returns memo (some (base, i)) memo' ∧
      base.IsVector s (padded cs.length v.exps) ∧ memo'.Sound := by
  have htwo := hc.two_le_length
  have hle := hc.length_le_tableSize
  have hlen : (zipEntries (· + ·) v.exps cs).length ≤ Prime.tableSize := by
    rw [length_zipEntries, v.length_exps]
    omega
  obtain ⟨c, memo', hcommas, hcv, hmemo'⟩ := hc.exists_inflection hs hmemo
  have hbase := hn.extended cs.length
  rw [← zipEntries_sub_add htwo] at hbase
  obtain ⟨w, hw⟩ := hm.exists_div hcv hlen hle hbase
  obtain ⟨base, rfl, hvector⟩ := hm.div hcv hw
  rw [zipEntries_sub_add htwo] at hvector
  have hflat : isFlat (base.exps.drop 2) = true := by
    rw [hvector.exps]
    exact isFlat_iff.mpr (congrArg (List.replicate · 0) List.length_replicate.symm)
  have hrows := h.inflectionsOf_eq hc v
  rw [← hm.exps] at hrows
  have hi : i = { superscripts := i.superscripts, subscripts := i.subscripts } := by
    have hups := h.ups
    have hlifts := h.lifts
    cases i
    simp_all
  -- the computation is followed step by step, with what each step gives
  refine ⟨base, memo', ?_, hvector, hmemo'⟩
  unfold skeletonOf
  rw [if_pos (isSpellable_of_commas hc hm)]
  refine Memoized.returns_bind.mpr ⟨some ⟨.exact base, i.superscripts, i.subscripts⟩, memo',
    ?_, ?_⟩
  · rw [Memoized.returns_giveUp, Memoized.returns_map]
    refine ⟨_, ?_, rfl⟩
    refine Memoized.returns_bind.mpr ⟨m, memo, Memoized.returns_ofExcept.mpr ⟨hm.folded, rfl⟩, ?_⟩
    refine Memoized.returns_bind.mpr ⟨_, memo, Memoized.returns_ofExcept.mpr ⟨hrows, rfl⟩, ?_⟩
    refine Memoized.returns_bind.mpr ⟨_, memo', hcommas, ?_⟩
    exact Memoized.returns_bind.mpr ⟨_, memo', Memoized.returns_ofExcept.mpr ⟨hw, rfl⟩,
      Memoized.returns_pure.mpr ⟨rfl, rfl⟩⟩
  · simp only [hflat, hvector.residual, Bool.true_and, decide_true, if_true]
    rw [Memoized.returns_pure, ← hi]
    exact ⟨rfl, rfl⟩

end Inflections.IsNormal

end Intonation
