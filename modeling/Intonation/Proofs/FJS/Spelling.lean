import Intonation.Proofs.FJS.Splitting
import Intonation.Proofs.Literal.Sizes

/-!
# Spelling what a named interval denotes

A named interval in normal form is what its value is spelled as, so that different normal forms
have different values.

## Main statements

* `of_lowerInterval`: the value of a named interval is a vector
* `Literal.spellInterval_inverts_lower`: spelling inverts lowering on normal forms
-/

namespace Intonation
open Double Literal Monzo

variable {s : Settings} {m n : Monzo} {flavor : String} {memo memo' : CommaMemo}
  {es fs cs : List ℚ} {i i' : Inflections} {name name' : Pythagorean} {v : Value} {c : Context}

/-! ## Names of vectors -/

theorem Skeleton.ofMonzo_of_padded {w : Skeleton} {count : Nat}
    (h : m.exps = padded count w.exps) : Skeleton.ofMonzo m = .ok w := by
  have hexps : m.exps = w.twos :: w.threes :: List.replicate (count - 2) 0 := h
  have htwo : m.exponentOf 2 = .ok w.twos := by
    unfold Monzo.exponentOf
    rw [Prime.index?_two, hexps]
    rfl
  have hthree : m.exponentOf 3 = .ok w.threes := by
    unfold Monzo.exponentOf
    rw [Prime.index?_three, hexps]
    rfl
  exact bind_eq_ok.mpr ⟨_, htwo, bind_eq_ok.mpr ⟨_, hthree, rfl⟩⟩

/-- The inflections of a row are accepted. -/
theorem Inflection.IsRow.known {row : List Inflection} (hflavor : flavor ∈ Inflection.flavors)
    (h : Inflection.IsRow flavor row) :
    ∀ k ∈ row, k.flavor ∈ Inflection.flavors ∧ 5 ≤ k.number := by
  intro k hk
  obtain ⟨p, hnumber, -, h5, -⟩ := h.prime k hk
  exact ⟨h.same_flavor k hk ▸ hflavor, by omega⟩

/-- A vector put together from a normal name and normal inflections is spelled as these. -/
theorem exists_spellInterval (hs : s.Valid) (hmemo : memo.Sound)
    (hflavor : flavor ∈ Inflection.flavors) (hname : name.IsNormal) (hi : i.IsNormal flavor)
    (hc : Commas s i.superscripts i.subscripts cs) (hn : n.IsVector s name.skeleton.exps)
    (hm : m.IsVector s (zipEntries (· + ·) name.skeleton.exps cs)) :
    ∃ memo', (spellInterval s m flavor).Returns memo (some (name, i)) memo' := by
  obtain ⟨base, memo', hbase, hvector, -⟩ := hi.exists_skeletonOf hc hs hmemo hn hm
  have hread : Pythagorean.ofMonzo base = .ok (some name) := by
    rw [Pythagorean.ofMonzo, Skeleton.ofMonzo_of_padded hvector.exps, Except.map,
      hname.ofSkeleton?_skeleton]
  have hmake : i.make = .ok i := Inflections.make_eq_iff.mpr (List.forall_mem_append.mpr
    ⟨hi.superscripts.known hflavor, hi.subscripts.known hflavor⟩)
  refine ⟨memo', Memoized.returns_bind.mpr ⟨_, memo', hbase, ?_⟩⟩
  refine Memoized.returns_bind.mpr ⟨_, memo', Memoized.returns_ofExcept.mpr ⟨hread, rfl⟩, ?_⟩
  exact Memoized.returns_bind.mpr ⟨_, memo', Memoized.returns_ofExcept.mpr ⟨hmake, rfl⟩,
    Memoized.returns_pure.mpr ⟨rfl, rfl⟩⟩

/-! ## Lowering -/

/-- Twos and threes moved by the commas of two rows, when the move returns. -/
theorem of_inflect {w : Skeleton} (hs : s.Valid) (hmemo : memo.Sound)
    (hup : ∀ k ∈ i.superscripts, k.IsPrime) (hdown : ∀ k ∈ i.subscripts, k.IsPrime)
    (hn : n.IsVector s w.exps)
    (h : (inflect s (.exact n) i.superscripts i.subscripts).Returns memo v memo') :
    ∃ (m : Monzo) (cs : List ℚ), v = .exact m ∧ Commas s i.superscripts i.subscripts cs ∧
      m.IsVector s (zipEntries (· + ·) w.exps cs) ∧ memo'.Sound := by
  obtain ⟨commas, rest, hcommas, h⟩ := Memoized.returns_bind.mp h
  obtain ⟨d, cs, rfl, hd, hc, hmemo'⟩ := Commas.of_inflection hs hmemo hup hdown hcommas
  obtain ⟨hmul, rfl⟩ := Memoized.returns_ofExcept.mp h
  obtain ⟨m, rfl, hm⟩ := (combinesVectors_mul s).vector hn hd hmul
  exact ⟨m, cs, rfl, hc, hm, hmemo'⟩

/-- The value of a named interval without ups and lifts is a vector. -/
theorem of_lowerInterval (hs : s.Valid) (hmemo : memo.Sound)
    (hup : ∀ k ∈ i.superscripts, k.IsPrime) (hdown : ∀ k ∈ i.subscripts, k.IsPrime)
    (hups : i.ups = 0) (hlifts : i.lifts = 0)
    (h : (lowerInterval s c name i).Returns memo v memo') :
    ∃ (n m : Monzo) (cs : List ℚ), v = .exact m ∧ n.IsVector s name.skeleton.exps ∧
      Commas s i.superscripts i.subscripts cs ∧
      m.IsVector s (zipEntries (· + ·) name.skeleton.exps cs) ∧ memo'.Sound := by
  obtain ⟨n, rest, hname, h⟩ := Memoized.returns_bind.mp h
  obtain ⟨hvalue, rfl⟩ := Memoized.returns_ofExcept.mp hname
  have hn := Pythagorean.isVector_of_toMonzo hvalue
  obtain ⟨w, rest, hinflect, h⟩ := Memoized.returns_bind.mp h
  obtain ⟨m, cs, rfl, hc, hm, hmemo'⟩ := of_inflect hs hmemo hup hdown hn hinflect
  rw [hups, hlifts, withArrows_zero] at h
  obtain ⟨hv, rfl⟩ := Memoized.returns_ofExcept.mp h
  cases hv
  exact ⟨n, m, cs, rfl, hn, hc, hm, hmemo'⟩

/-! ## Strict equality -/

/-- Strictly equal vectors have equal entries, with zeros in place of missing ones. -/
theorem getD_eq_of_strictEquals (hm : m.IsVector s es) (hn : n.IsVector s fs)
    (h : m.strictEquals s n = .ok true) (k : Nat) : es.getD k 0 = fs.getD k 0 := by
  obtain ⟨⟨a, b⟩, halign, h⟩ := bind_eq_ok.mp h
  obtain ⟨ha, hb⟩ := hm.align hn halign
  have hexps : a.exps = b.exps := by
    have := Except.ok.inj h
    simp only [Bool.and_eq_true, decide_eq_true_eq] at this
    exact this.1.1.2
  rw [ha.exps, hb.exps] at hexps
  rw [← getD_padded fs.length es, hexps, getD_padded]

theorem Inflections.IsNormal.ext (h : i.IsNormal flavor) (h' : i'.IsNormal flavor)
    (hup : ∀ p ∈ Prime.table.drop 2, countOf p i.superscripts = countOf p i'.superscripts)
    (hdown : ∀ p ∈ Prime.table.drop 2, countOf p i.subscripts = countOf p i'.subscripts) :
    i = i' := by
  have hsorted : (Prime.table.drop 2).Pairwise (· < ·) :=
    Prime.table_pairwise.sublist (List.drop_sublist _ _)
  have hmem : ∀ {row : List Inflection}, Inflection.IsRow flavor row →
      ∀ k ∈ row, ∃ p ∈ Prime.table.drop 2, k.number = (p : Nat) := by
    intro row hrow k hk
    obtain ⟨j, p, hp, hnumber⟩ := hrow.isPrime k hk
    refine ⟨p, List.mem_of_getElem? (i := j) ?_, hnumber⟩
    rw [List.getElem?_drop, Nat.add_comm, hp]
  have hsame : ∀ {row row' : List Inflection}, Inflection.IsRow flavor row →
      Inflection.IsRow flavor row' →
      (∀ p ∈ Prime.table.drop 2, countOf p row = countOf p row') → row = row' := by
    intro row row' hrow hrow' hcounts
    rw [hrow.eq_flatMap hsorted (hmem hrow), hrow'.eq_flatMap hsorted (hmem hrow')]
    exact List.flatMap_congr fun p hp => by rw [hcounts p hp]
  have hsuper := hsame h.superscripts h'.superscripts hup
  have hsub := hsame h.subscripts h'.subscripts hdown
  have hups := h.ups.trans h'.ups.symm
  have hlifts := h.lifts.trans h'.lifts.symm
  cases i
  cases i'
  simp_all

/-- Normal forms with equal entries are equal. -/
theorem normalForm_unique (hname : name.IsNormal) (hname' : name'.IsNormal)
    (hi : i.IsNormal flavor) (hi' : i'.IsNormal flavor) {ds : List ℚ}
    (hc : Commas s i.superscripts i.subscripts cs)
    (hd : Commas s i'.superscripts i'.subscripts ds)
    (h : ∀ k, (zipEntries (· + ·) name.skeleton.exps cs).getD k 0 =
      (zipEntries (· + ·) name'.skeleton.exps ds).getD k 0) : name = name' ∧ i = i' := by
  have hsums : ∀ k, name.skeleton.exps.getD k 0 + cs.getD k 0 =
      name'.skeleton.exps.getD k 0 + ds.getD k 0 := by
    intro k
    have hk := h k
    rwa [getD_zipEntries (add_zero 0), getD_zipEntries (add_zero 0)] at hk
  -- the entries from five up count inflections, of which one kind is missing
  have hcounts : ∀ p ∈ Prime.table.drop 2, countOf p i.superscripts = countOf p i'.superscripts ∧
      countOf p i.subscripts = countOf p i'.subscripts := by
    intro p hp
    obtain ⟨j, hj⟩ := List.getElem?_of_mem hp
    rw [List.getElem?_drop, Nat.add_comm] at hj
    have hentry := hsums (j + 2)
    rw [hc.getD_eq hj, hd.getD_eq hj] at hentry
    have hbalance : (countOf p i.superscripts : ℚ) - countOf p i.subscripts =
        countOf p i'.superscripts - countOf p i'.subscripts := by
      simpa [Skeleton.exps] using hentry
    have hsum : countOf p i.superscripts + countOf p i'.subscripts =
        countOf p i'.superscripts + countOf p i.subscripts := by
      have : (countOf p i.superscripts : ℚ) + countOf p i'.subscripts =
          countOf p i'.superscripts + countOf p i.subscripts := by linarith
      exact_mod_cast this
    rcases hi.count_eq_zero p with h0 | h0 <;> rcases hi'.count_eq_zero p with h0' | h0' <;>
      omega
  obtain rfl := hi.ext hi' (fun p hp => (hcounts p hp).1) fun p hp => (hcounts p hp).2
  obtain rfl := hc.unique hd
  refine ⟨?_, rfl⟩
  have htwos := hsums 0
  have hthrees := hsums 1
  have hskeleton : name.skeleton = name'.skeleton := by
    have h0 : name.skeleton.twos = name'.skeleton.twos := add_right_cancel htwos
    have h1 : name.skeleton.threes = name'.skeleton.threes := add_right_cancel hthrees
    generalize name.skeleton = v at h0 h1 ⊢
    generalize name'.skeleton = w at h0 h1 ⊢
    cases v
    cases w
    simp_all
  exact Option.some.inj (by
    rw [← hname.ofSkeleton?_skeleton, hskeleton, hname'.ofSkeleton?_skeleton])

namespace Literal

/-- Spelling inverts lowering on normal forms: whenever a normal form lowers, its value is exact
and is spelled as the same name with the same inflections, whatever commas have been found before;
and no other normal form of the flavor lowers to a strictly equal value. -/
theorem spellInterval_inverts_lower {context : Option Context} {q : Quantity} (hs : s.Valid)
    (hflavor : flavor ∈ Inflection.flavors) (hname : name.IsNormal) (hi : i.IsNormal flavor)
    (hmemo : memo.Sound)
    (h : (lower s context (interval name i)).Returns memo q memo') :
    ∃ (a : Interval) (m : Monzo), q = .interval a ∧ a.value = .exact m ∧
      (∀ rest : CommaMemo, rest.Sound →
        ∃ rest', (spellInterval s m flavor).Returns rest (some (name, i)) rest') ∧
      ∀ {name' : Pythagorean} {i' : Inflections} {context' : Option Context}
        {rest rest' : CommaMemo} {b : Interval}, name'.IsNormal → i'.IsNormal flavor →
        rest.Sound → (lower s context' (interval name' i')).Returns rest (.interval b) rest' →
        a.value.strictEquals s b.value = .ok true → name' = name ∧ i' = i := by
  obtain ⟨c, v, -, hv, rfl⟩ := (lower_returns_iff rfl).mp h
  obtain ⟨n, m, cs, rfl, hn, hc, hm, -⟩ := of_lowerInterval hs hmemo hi.superscripts.isPrime
    hi.subscripts.isPrime hi.ups hi.lifts hv
  refine ⟨_, m, rfl, rfl, ?_, ?_⟩
  · intro rest hrest
    exact exists_spellInterval hs hrest hflavor hname hi hc hn hm
  · intro name' i' context' rest rest' b hname' hi' hrest hb hequal
    obtain ⟨c', w, -, hw, hq⟩ := (lower_returns_iff rfl).mp hb
    cases hq
    obtain ⟨n', m', ds, rfl, -, hd, hm', -⟩ := of_lowerInterval hs hrest hi'.superscripts.isPrime
      hi'.subscripts.isPrime hi'.ups hi'.lifts hw
    obtain ⟨h1, h2⟩ := normalForm_unique hname hname' hi hi' hc hd
      (getD_eq_of_strictEquals hm hm' hequal)
    exact ⟨h1.symm, h2.symm⟩

/-- The major third raised by the comma of five lowers, and its value is spelled as such. -/
theorem spellInterval_majorThird : ∃ (a : Interval) (m : Monzo) (memo memo' : CommaMemo),
    (lower {} none (interval ⟨.major, 3⟩ { superscripts := [⟨5, ""⟩] })).Returns []
      (.interval a) memo ∧ a.value = .exact m ∧
    (spellInterval {} m "").Returns []
      (some (⟨.major, 3⟩, { superscripts := [⟨5, ""⟩] })) memo' := by
  have hrun : ((lower {} none (interval ⟨.major, 3⟩ { superscripts := [⟨5, ""⟩] })).run.run
      []).1.toOption.isSome = true := by decide +kernel
  rcases hq : (lower {} none (interval ⟨.major, 3⟩ { superscripts := [⟨5, ""⟩] })).run.run []
    with ⟨outcome, memo⟩
  rw [hq] at hrun
  cases outcome with
  | error fault => cases hrun
  | ok q =>
    have hrow : Inflection.IsRow "" [⟨5, ""⟩] := by
      refine ⟨List.pairwise_singleton _ _, ?_, ?_⟩
      · intro k hk
        rw [List.mem_singleton] at hk
        subst hk
        exact ⟨5, rfl, by norm_num, le_rfl, by norm_num [Prime.tableLimit]⟩
      · intro k hk
        rw [List.mem_singleton] at hk
        subst hk
        rfl
    have hempty : Inflection.IsRow "" [] := ⟨.nil, by simp, by simp⟩
    obtain ⟨a, m, rfl, ha, hspell, -⟩ := spellInterval_inverts_lower
      Settings.valid_default (by decide : "" ∈ Inflection.flavors)
      ⟨by decide, by decide, by decide, by decide +kernel⟩
      ⟨hrow, hempty, by simp, rfl, rfl⟩ .nil hq
    obtain ⟨memo', hmemo'⟩ := hspell [] .nil
    exact ⟨a, m, memo, memo', hq, ha, hmemo'⟩

end Literal

end Intonation
