import Intonation.Proofs.Monzo.Coordinates
import Intonation.Proofs.Monzo.Factored
import Intonation.Proofs.Prime.Position

/-!
# Resizing the basis

Shrinking the basis pops exponents into the residual, from the last prime to the first; growing it
factors the whole residual and adds to the exponents at hand. On a factored value that is not zero
the two undo each other, as long as the exponents that are dropped are whole, and nothing that can
be asked of the value changes.

## Main definitions

* `Monzo.Narrows`: a value over the first primes of another
* `Monzo.SameValue`: what a value shows of itself over any number of primes

## Main statements

* `Narrows.shrink`, `Narrows.grow`: each of the two is had from the other by resizing
* `narrows_of_shrink`, `narrows_of_grow`: what resizing gives
* `resizeTo_spec`: resizing keeps the value
-/

namespace Intonation

namespace Prime

theorem powerProduct_append (primes : List Nat) (ns ks : List Int) :
    powerProduct primes (ns ++ ks) =
      powerProduct primes ns * powerProduct (primes.drop ns.length) ks := by
  induction ns generalizing primes with
  | nil => simp
  | cons n ns ih =>
    cases primes with
    | nil => simp [powerProduct]
    | cons p primes =>
      rw [List.cons_append, powerProduct_cons, powerProduct_cons, ih, mul_assoc, List.length_cons,
        List.drop_succ_cons]

/-- The first primes have no exponents, and the product is that of the others. -/
theorem powerProduct_zeros_append (primes : List Nat) (count : Nat) (ks : List Int) :
    powerProduct primes (List.replicate count 0 ++ ks) = powerProduct (primes.drop count) ks := by
  rw [powerProduct_append, powerProduct_eq_one fun e he => List.eq_of_mem_replicate he, one_mul,
    List.length_replicate]

end Prime

namespace Monzo
open Double Intonation.Prime

variable {s t u : Settings} {m n w : Monzo} {count k p : Nat} {es : List ℚ} {ks : List Int}

/-! ## Dropped exponents -/

/-- Whole exponents are multiplied into the residual, and leave the real correction. -/
theorem dropInto_wholes {primes : List Nat} (hlen : ks.length ≤ primes.length) (rest : Leftover) :
    dropInto (primes.map fun p => (p, Prime.cents p)) (wholes ks) rest =
      .ok { rest with residual := rest.residual * powerProduct primes ks } := by
  induction ks generalizing primes with
  | nil => cases primes <;> simp [dropInto, wholes]
  | cons k ks ih =>
    cases primes with
    | nil => simp at hlen
    | cons p primes =>
      show dropInto ((p, Prime.cents p) :: primes.map fun p => (p, Prime.cents p))
        ((k : ℚ) :: wholes ks) rest = _
      rw [dropInto, ih (Nat.le_of_succ_le_succ hlen)]
      simp only [bind, Except.bind]
      rw [if_pos (Rat.den_intCast k), Rat.num_intCast, powerProduct_cons]
      congr 2
      ring

/-- There are primes for all the exponents that can be dropped. -/
theorem length_le_of_dropInto {primes : List (Nat × Float)} {rest r : Leftover}
    (h : dropInto primes es rest = .ok r) : es.length ≤ primes.length := by
  induction es generalizing primes r with
  | nil => exact Nat.zero_le _
  | cons e es ih =>
    cases primes with
    | nil => cases h
    | cons p primes =>
      rw [dropInto] at h
      obtain ⟨r', hr', -⟩ := bind_eq_ok.mp h
      exact Nat.succ_le_succ (ih hr')

/-- Exponents of further primes are appended. -/
theorem addExponents_zeros_append (es : List ℚ) (ks : List Int) :
    addExponents es (List.replicate es.length 0 ++ ks) = es ++ wholes ks := by
  induction es with
  | nil => exact addExponents_nil_left ks
  | cons e es ih =>
    rw [List.length_cons, List.replicate_succ, List.cons_append, addExponents, ih, Int.cast_zero,
      add_zero, List.cons_append]

/-! ## Over the first primes -/

/-- The first value is the second over its first primes: the exponents of the others are whole and
are kept in the residual. -/
structure Narrows (n m : Monzo) : Prop where
  time : n.time = m.time
  cents : n.cents = m.cents
  moved : ∃ ks : List Int, m.exps = n.exps ++ wholes ks ∧
    n.residual = m.residual * powerProduct (table.drop n.components) ks
  nonzero : m.residual ≠ 0
  free : Free (table.take m.components) m.residual
  narrow : m.components ≤ tableSize

namespace Narrows

theorem components_le (h : Narrows n m) : n.components ≤ m.components := by
  obtain ⟨ks, hexps, -⟩ := h.moved
  rw [components, components, hexps, List.length_append]
  exact Nat.le_add_right _ _

theorem refl (hm : m.Factored) (h0 : m.residual ≠ 0) (hle : m.components ≤ tableSize) :
    Narrows m m :=
  ⟨rfl, rfl, ⟨[], by simp [wholes], by simp⟩, h0, hm.free, hle⟩

/-- Factoring the residual gives back the exponents that were moved there. -/
theorem split_residual (h : Narrows n m) (hexps : m.exps = n.exps ++ wholes ks)
    (hres : n.residual = m.residual * powerProduct (table.drop n.components) ks) :
    split (table.take m.components) n.residual =
      (List.replicate n.components 0 ++ ks, m.residual) := by
  have hlen : (List.replicate n.components 0 ++ ks).length = m.components := by
    rw [components, components, hexps, List.length_append, List.length_append,
      List.length_replicate, length_wholes]
  refine split_eq_of_eq_mul (distinct_table.take _) ?_ h.nonzero h.free ?_
  · rw [hlen, length_take_table h.narrow]
  · rw [powerProduct_take _ _ hlen.le, powerProduct_zeros_append, hres]

theorem parts_eq (h : Narrows n m) : m.parts = spread m.components n.parts := by
  obtain ⟨ks, hexps, hres⟩ := h.moved
  rcases h.components_le.lt_or_eq with hlt | heq
  · rw [spread, if_pos (show n.parts.1.length < m.components from hlt)]
    show (m.exps, m.residual) = (addExponents n.exps (split _ n.residual).1, (split _ n.residual).2)
    rw [h.split_residual hexps hres, components, addExponents_zeros_append, hexps]
  · have hks : ks = [] := by
      have hlen := congrArg List.length hexps
      rw [List.length_append, length_wholes] at hlen
      exact List.length_eq_zero_iff.mp (by unfold components at heq; omega)
    rw [spread_of_le (show m.components ≤ n.parts.1.length from heq.ge), parts, parts, hexps, hres,
      hks]
    simp [wholes]

/-- Shrinking the wider value gives the narrower one, if that is within the bounds. -/
theorem shrink (h : Narrows n m) (s : Settings) : m.shrink s n.components = checked s n := by
  obtain ⟨ks, hexps, hres⟩ := h.moved
  have hmeasures : Prime.measures.drop n.components =
      (table.drop n.components).map fun p => (p, Prime.cents p) := by
    rw [Prime.measures, List.map_drop]
  have hdrop : m.exps.drop n.components = wholes ks := by
    rw [hexps, components, List.drop_left]
  have htake : m.exps.take n.components = n.exps := by
    rw [hexps, components, List.take_left]
  have hlen : ks.length ≤ (table.drop n.components).length := by
    have hm := h.narrow
    rw [components, hexps, List.length_append, length_wholes] at hm
    rw [List.length_drop, length_table, components]
    omega
  rw [Monzo.shrink, hmeasures, hdrop, dropInto_wholes hlen, htake]
  show checked s { m with
    exps := n.exps
    residual := m.residual * powerProduct (table.drop n.components) ks } = _
  rw [← hres, ← h.time, ← h.cents]

/-- Growing the narrower value gives the wider one, if that is within the bounds. -/
theorem grow (h : Narrows n m) (hlt : n.components < m.components) (s : Settings) :
    n.grow s m.components = checked s m := by
  have hparts := h.parts_eq
  rw [spread, if_pos (show n.parts.1.length < m.components from hlt)] at hparts
  have hexps : m.exps = addExponents n.exps (split (table.take m.components) n.residual).1 :=
    congrArg Prod.fst hparts
  have hres : m.residual = (split (table.take m.components) n.residual).2 :=
    congrArg Prod.snd hparts
  have hfactor : factor m.components n.residual =
      .ok (split (table.take m.components) n.residual) :=
    factor_eq_ok_iff.mpr ⟨h.narrow, rfl⟩
  rw [Monzo.grow, hfactor]
  show checked s { n with
    exps := addExponents n.exps (split (table.take m.components) n.residual).1
    residual := (split (table.take m.components) n.residual).2 } = _
  rw [← hexps, ← hres, h.time, h.cents]

/-- A value over all of its own primes is the value. -/
theorem eq (h : Narrows n m) (hlen : n.components = m.components) : n = m := by
  have hparts := h.parts_eq
  rw [spread_of_le (show m.components ≤ n.parts.1.length from hlen.ge)] at hparts
  obtain ⟨hexps, hres⟩ := Prod.mk.injEq .. ▸ hparts
  cases n
  cases m
  rw [mk.injEq]
  exact ⟨h.time, hexps.symm, hres.symm, h.cents⟩

/-- Each of the two is had from the other by resizing, if it is within the bounds. -/
theorem resize (h : Narrows n m) (s : Settings) :
    m.resize s n.components = checked s n ∧ n.resize s m.components = checked s m := by
  rcases h.components_le.lt_or_eq with hlt | heq
  · rw [Monzo.resize, if_pos hlt, Monzo.resize, if_neg hlt.not_gt, if_pos hlt]
    exact ⟨h.shrink s, h.grow hlt s⟩
  · obtain rfl := h.eq heq
    simp [Monzo.resize]

end Narrows

/-! ### What resizing gives -/

theorem narrows_of_shrink (hm : m.Factored) (h0 : m.residual ≠ 0) (hlt : count < m.components)
    (hwhole : ∀ e ∈ m.exps.drop count, e.den = 1) (h : m.shrink s count = .ok n) :
    Narrows n m ∧ n.components = count := by
  obtain ⟨rest, hrest, h⟩ := bind_eq_ok.mp h
  obtain ⟨-, rfl⟩ := checked_eq_ok_iff.mp h
  obtain ⟨ks, hks⟩ := exists_wholes hwhole
  have hlen : (m.exps.drop count).length ≤ (table.drop count).length := by
    have hle := length_le_of_dropInto hrest
    rwa [Prime.measures, ← List.map_drop, List.length_map] at hle
  have hmeasures : Prime.measures.drop count =
      (table.drop count).map fun p => (p, Prime.cents p) := by
    rw [Prime.measures, List.map_drop]
  rw [hks, length_wholes] at hlen
  rw [hks, hmeasures, dropInto_wholes hlen] at hrest
  cases hrest
  have hcount : (m.exps.take count).length = count := by
    rw [List.length_take]
    exact min_eq_left hlt.le
  refine ⟨⟨rfl, rfl, ⟨ks, ?_, ?_⟩, h0, hm.free, ?_⟩, hcount⟩
  · rw [← hks, List.take_append_drop]
  · rw [components, hcount]
  · have hdropped := congrArg List.length hks
    rw [List.length_drop, length_wholes] at hdropped
    rw [List.length_drop, length_table] at hlen
    unfold components at hlt ⊢
    omega

theorem narrows_of_grow (hm : m.Factored) (h0 : m.residual ≠ 0) (hlt : m.components < count)
    (h : m.grow s count = .ok n) : Narrows m n ∧ n.components = count := by
  obtain ⟨parts, hparts, h⟩ := bind_eq_ok.mp h
  obtain ⟨hle, rfl⟩ := factor_eq_ok_iff.mp hparts
  obtain ⟨-, rfl⟩ := checked_eq_ok_iff.mp h
  have hd := distinct_table.take count
  obtain ⟨hlen, hfree, hproduct⟩ := split_spec hd m.residual
  have hres := (residual_split_ne_zero_iff hd).mpr h0
  rw [length_take_table hle] at hlen
  -- the residual has none of the primes that the value has exponents of already
  have hzeros : (split (table.take count) m.residual).1 = List.replicate m.components 0 ++
      (split (table.take count) m.residual).1.drop m.components := by
    conv_lhs => rw [← List.take_append_drop m.components (split (table.take count) m.residual).1]
    congr 1
    refine List.eq_replicate_iff.mpr ⟨?_, fun e he => ?_⟩
    · rw [List.length_take, hlen]
      exact min_eq_left hlt.le
    · rw [← map_padicValRat_split hd h0, ← List.map_take, List.take_take, min_eq_left hlt.le] at he
      obtain ⟨p, hp, rfl⟩ := List.mem_map.mp he
      exact hm.free p hp
  generalize split (table.take count) m.residual = parts at hlen hfree hproduct hres hzeros
  generalize parts.1.drop m.components = ks at hzeros
  have hexps : addExponents m.exps parts.1 = m.exps ++ wholes ks := by
    rw [hzeros]
    exact addExponents_zeros_append m.exps ks
  have hcount : (addExponents m.exps parts.1).length = count := by
    rw [length_addExponents, hlen]
    exact max_eq_right hlt.le
  refine ⟨⟨rfl, rfl, ⟨ks, hexps, ?_⟩, hres, ?_, ?_⟩, hcount⟩
  · rw [← hproduct, powerProduct_take _ _ hlen.le, hzeros, powerProduct_zeros_append]
  · rw [components, hcount]
    exact hfree
  · rw [components, hcount]
    exact hle

/-- Resizing a value goes to its first primes, or to more primes whose first ones are its own. -/
theorem narrows_of_resize (hm : m.Factored) (h0 : m.residual ≠ 0) (hcount : count ≤ tableSize)
    (hwhole : ∀ e ∈ m.exps.drop count, e.den = 1) (h : m.resize s count = .ok n) :
    (Narrows n m ∨ Narrows m n) ∧ n.components = count := by
  unfold resize at h
  split at h
  · next hlt => exact (narrows_of_shrink hm h0 hlt hwhole h).imp_left .inl
  · split at h
    · next hlt => exact (narrows_of_grow hm h0 hlt h).imp_left .inr
    · have hlen : m.components = count := by omega
      obtain ⟨-, rfl⟩ := checked_eq_ok_iff.mp h
      exact ⟨.inl (.refl hm h0 (hlen.trans_le hcount)), hlen⟩

/-! ## What does not depend on the basis -/

/-- What a value shows of itself over any number of primes. -/
structure SameValue (m n : Monzo) : Prop where
  time : n.time = m.time
  cents : n.cents = m.cents
  sign : SignType.sign n.residual = SignType.sign m.residual
  exponents : ∀ p ∈ table, ∃ e, m.exponentOf p = .ok e ∧ n.exponentOf p = .ok e
  ratio : n.toRatio = m.toRatio

theorem SameValue.symm (h : SameValue m n) : SameValue n m where
  time := h.time.symm
  cents := h.cents.symm
  sign := h.sign.symm
  exponents p hp := (h.exponents p hp).imp fun _ he => he.symm
  ratio := h.ratio.symm

/-- The exponent of a prime in a factored value is its coordinate. -/
theorem Factored.exponentOf (h : m.Factored) (hp : table[k]? = some p) :
    m.exponentOf p = .ok (coordinate m.parts k) := by
  have hk := lt_tableSize hp
  have hposition := atPosition_of_getElem? hp
  unfold Monzo.exponentOf
  rw [index?_eq_some_iff.mpr ⟨p, rfl, hp⟩]
  simp only
  rw [coordinate, hposition]
  cases he : m.exps[k]? with
  | some e =>
    have hmem : p ∈ table.take m.components :=
      (mem_take_iff hp).mpr (List.getElem?_eq_some_iff.mp he).1
    have hget : m.parts.1.getD k 0 = e := by rw [parts, List.getD_eq_getElem?_getD, he]; rfl
    rw [hget, parts, h.free p hmem, Int.cast_zero, add_zero]
  | none =>
    have hget : m.parts.1.getD k 0 = 0 := by rw [parts, List.getD_eq_getElem?_getD, he]; rfl
    refine bind_eq_ok.mpr ⟨_, factor_eq_ok_iff.mpr ⟨hk, rfl⟩, ?_⟩
    rw [getD_split, if_pos (Nat.lt_succ_self k), hposition, hget, zero_add, parts]

namespace Narrows

theorem coordinate_eq (h : Narrows n m) (k : Nat) :
    coordinate n.parts k = coordinate m.parts k := by
  rw [h.parts_eq, coordinate_spread]

theorem sign_eq (h : Narrows n m) : SignType.sign n.residual = SignType.sign m.residual := by
  obtain ⟨ks, -, hres⟩ := h.moved
  rw [hres, ← powerProduct_zeros_append, sign_mul, sign_pos (powerProduct_pos distinct_table _),
    mul_one]

theorem isFractional_iff (h : Narrows n m) : n.isFractional ↔ m.isFractional := by
  obtain ⟨ks, hexps, -⟩ := h.moved
  have hks : ∀ e ∈ wholes ks, e.den = 1 := by
    intro e he
    obtain ⟨k, -, rfl⟩ := List.mem_map.mp he
    exact Rat.den_intCast k
  simp only [isFractional, isUncorrected, h.cents, hexps, List.all_append, Bool.and_eq_true,
    List.all_eq_true, decide_eq_true_eq]
  exact and_congr_right fun _ => (and_iff_left hks).symm

theorem ratio_eq (h : Narrows n m) (hn : n.isFractional) : n.ratio = m.ratio := by
  obtain ⟨ks, hexps, hres⟩ := h.moved
  obtain ⟨-, ns, hns⟩ := Monzo.isFractional_iff.mp hn
  have hall : m.exps = wholes (ns ++ ks) := by
    rw [hexps, hns, wholes, wholes, wholes, List.map_append]
  have hlen : n.components = ns.length := by rw [components, hns, length_wholes]
  rw [ratio_eq_of_exps hns, ratio_eq_of_exps hall, hres, powerProduct_append, hlen]
  ring

theorem sameValue (h : Narrows n m) (hn : n.Factored) (hm : m.Factored) : SameValue m n where
  time := h.time
  cents := h.cents
  sign := h.sign_eq
  exponents p hp := by
    obtain ⟨k, hk, rfl⟩ := List.mem_iff_getElem.mp hp
    have hget : table[k]? = some table[k] := List.getElem?_eq_getElem hk
    exact ⟨_, hm.exponentOf hget, by rw [hn.exponentOf hget, h.coordinate_eq]⟩
  ratio := by
    unfold toRatio
    by_cases hfrac : n.isFractional
    · rw [if_pos hfrac, if_pos (h.isFractional_iff.mp hfrac), h.ratio_eq hfrac]
    · rw [if_neg hfrac, if_neg (mt h.isFractional_iff.mpr hfrac)]

end Narrows

/-- A value whose correction is a number is strictly equal to itself. -/
theorem strictEquals_self (h : m.cents.isNaN = false) (s : Settings) :
    m.strictEquals s m = .ok true := by
  have hwide : m.widen s m.components = .ok m := by rw [widen, if_neg (lt_irrefl _)]
  refine bind_eq_ok.mpr ⟨(m, m), bind_eq_ok.mpr ⟨m, hwide, bind_eq_ok.mpr ⟨m, hwide, rfl⟩⟩, ?_⟩
  simp [(Alike.refl m.cents).beq h]

/-- A factored value that is not zero keeps its time exponent, correction, sign, exponents and
ratio over any number of primes of the table, as long as the exponents that are dropped are whole.
What resizing returns is factored, and resizing it back, under whatever settings, returns a value
that is strictly equal to the first one, at the latest when the first one is within the bounds. -/
theorem resizeTo_spec {count : Int} (hm : m.Factored) (h0 : m.residual ≠ 0)
    (hcount : count ≤ tableSize) (hwhole : ∀ e ∈ m.exps.drop count.toNat, e.den = 1)
    (h : m.resizeTo s count = .ok n) :
    n.components = count ∧ SameValue m n ∧ n.Factored ∧
      ∀ t, (boundsFault? t m = none → ∃ w, n.resizeTo t m.components = .ok w) ∧
        ∀ w, n.resizeTo t m.components = .ok w → ∀ u, w.strictEquals u m = .ok true := by
  unfold resizeTo at h
  split at h
  · cases h
  · next hneg =>
    obtain ⟨hnarrows, hcomponents⟩ :=
      narrows_of_resize hm h0 (show count.toNat ≤ tableSize by omega) hwhole h
    have hn : n.Factored := Ensures.iff_forall.mp hm.resize n h
    have hsame : SameValue m n := hnarrows.elim (fun h => h.sameValue hn hm)
      fun h => (h.sameValue hm hn).symm
    refine ⟨by rw [hcomponents]; omega, hsame, hn, fun t => ?_⟩
    have hback : n.resizeTo t m.components = checked t m := by
      rw [resizeTo, if_neg (by omega), Int.toNat_natCast]
      exact hnarrows.elim (fun h => (h.resize t).2) fun h => (h.resize t).1
    rw [hback]
    refine ⟨fun hm => ⟨m, checked_eq_ok_iff.mpr ⟨hm, rfl⟩⟩, fun w hw u => ?_⟩
    obtain ⟨hm, rfl⟩ := checked_eq_ok_iff.mp hw
    exact strictEquals_self (boundsFault?_eq_none_iff.mp hm).2.not_nan u

/-- Seventy-seven fifths of the root of two, negative, over four primes and over two. -/
theorem resizeTo_spec_mixed :
    let m : Monzo := { exps := [1 / 2, 0, -1, 1], residual := -11 }
    m.Factored ∧ m.residual ≠ 0 ∧ (∀ e ∈ m.exps.drop 2, e.den = 1) ∧
      ∃ n, m.resizeTo {} 2 = .ok n ∧ n.components = 2 ∧ SameValue m n ∧ n.Factored ∧
        ∃ w, n.resizeTo {} 4 = .ok w ∧ w.strictEquals {} m = .ok true := by
  intro m
  have hm : m.Factored := by
    have hfree : Free (table.take 4) ((11 : Nat) / (1 : Nat)) :=
      .of_not_dvd (distinct_table.take 4) (by decide +kernel) (by decide +kernel)
    refine ⟨?_, fun e he => ?_⟩
    · rw [Nat.cast_one, div_one] at hfree
      exact hfree.neg
    · rw [List.drop_eq_nil_of_le (by decide)] at he
      cases he
  have h0 : m.residual ≠ 0 := by decide +kernel
  have hwhole : ∀ e ∈ m.exps.drop 2, e.den = 1 := by decide +kernel
  have hok : (m.resizeTo {} 2).map (fun _ => ()) = .ok () := by decide +kernel
  obtain ⟨n, hn, -⟩ := map_eq_ok.mp hok
  obtain ⟨hcomponents, hsame, hfactored, hback⟩ :=
    resizeTo_spec hm h0 (show (2 : Int) ≤ tableSize by decide) hwhole hn
  obtain ⟨w, hw⟩ := (hback {}).1 (by decide +kernel)
  exact ⟨hm, h0, hwhole, n, hn, by exact_mod_cast hcomponents, hsame, hfactored, w, hw,
    (hback {}).2 w hw {}⟩

end Monzo

end Intonation
