import Intonation.Proofs.Literal.SizeArithmetic

/-!
# Literals of tuning maps

A tuning map over a basis of primes puts its entries in the positions of the primes. Maps over
one basis are combined entry by entry, whatever the basis, since their vectors are.

## Main definitions

* `Literal.IsMap`: the vector and the equave that a tuning map denotes

## Main statements

* `placeEntries_zipWith`, `placeEntries_map`: entries may be combined before they are placed
* `IsMap.lowers`: a tuning map lowers to what it denotes
* `IsMap.scale`, `IsMap.combine`: operations on tuning maps
-/

namespace Intonation.Literal
open Double

/-! ## Placing entries -/

theorem set_zipWith (op : ℚ → ℚ → ℚ) (xs ys : List ℚ) (i : Nat) (x y : ℚ) :
    (xs.set i x).zipWith op (ys.set i y) = (xs.zipWith op ys).set i (op x y) := by
  induction xs generalizing ys i with
  | nil => simp
  | cons x xs ih =>
    cases ys with
    | nil => simp
    | cons y ys =>
      cases i with
      | zero => rfl
      | succ i => rw [List.set_cons_succ, List.set_cons_succ, List.zipWith_cons_cons, ih,
          List.zipWith_cons_cons, List.set_cons_succ]

theorem foldl_set_zipWith (op : ℚ → ℚ → ℚ) (positions : List Nat) {xs ys : List ℚ}
    (h : xs.length = ys.length) (row row' : List ℚ) :
    (positions.zip (xs.zipWith op ys)).foldl (fun row (i, e) => row.set i e)
        (row.zipWith op row') =
      ((positions.zip xs).foldl (fun row (i, e) => row.set i e) row).zipWith op
        ((positions.zip ys).foldl (fun row (i, e) => row.set i e) row') := by
  induction positions generalizing xs ys row row' with
  | nil => rfl
  | cons i positions ih =>
    cases xs with
    | nil =>
      cases ys with
      | nil => rfl
      | cons y ys => cases h
    | cons x xs =>
      cases ys with
      | nil => cases h
      | cons y ys =>
        rw [List.zipWith_cons_cons, List.zip_cons_cons, List.zip_cons_cons, List.zip_cons_cons,
          List.foldl_cons, List.foldl_cons, List.foldl_cons]
        simp only
        rw [← set_zipWith]
        exact ih (Nat.succ.inj h) _ _

/-- Entries may be combined before they are placed. -/
theorem placeEntries_zipWith {f : ℚ → ℚ → ℚ} (h0 : f 0 0 = 0) (positions : List Nat)
    {xs ys : List ℚ} (h : xs.length = ys.length) :
    placeEntries positions (xs.zipWith f ys) =
      (placeEntries positions xs).zipWith f (placeEntries positions ys) := by
  unfold placeEntries
  rw [← foldl_set_zipWith f positions h, List.zipWith_replicate, min_self, h0]

theorem placeEntries_map {f : ℚ → ℚ} (h0 : f 0 = 0) (positions : List Nat) (xs : List ℚ) :
    placeEntries positions (xs.map f) = (placeEntries positions xs).map f := by
  have h := placeEntries_zipWith (f := fun x _ => f x) h0 positions (rfl : xs.length = xs.length)
  have hself : ∀ zs : List ℚ, zs.zipWith (fun x _ => f x) zs = zs.map f := by
    intro zs
    induction zs with
    | nil => rfl
    | cons z zs ih => rw [List.zipWith_cons_cons, ih, List.map_cons]
  rwa [hself, hself] at h

theorem length_placeEntries (positions : List Nat) (entries : List ℚ) :
    (placeEntries positions entries).length = positions.foldl max 0 + 1 := by
  have key : ∀ (pairs : List (Nat × ℚ)) (row : List ℚ),
      (pairs.foldl (fun row (i, e) => row.set i e) row).length = row.length := by
    intro pairs
    induction pairs with
    | nil => exact fun row => rfl
    | cons pair pairs ih =>
      intro row
      rw [List.foldl_cons, ih, List.length_set]
  rw [placeEntries, key, List.length_replicate]

/-- A row holds the entries that are placed in it, and zeros. -/
theorem eq_zero_or_mem_of_mem_placeEntries {positions : List Nat} {entries : List ℚ} {e : ℚ}
    (h : e ∈ placeEntries positions entries) : e = 0 ∨ e ∈ entries := by
  have key : ∀ (pairs : List (Nat × ℚ)) (row : List ℚ),
      e ∈ pairs.foldl (fun row (i, e) => row.set i e) row → e ∈ row ∨ e ∈ pairs.map Prod.snd := by
    intro pairs
    induction pairs with
    | nil => exact fun row h => .inl h
    | cons pair pairs ih =>
      intro row h
      rw [List.map_cons, List.mem_cons]
      rcases ih _ h with hrow | hpairs
      · rcases List.mem_or_eq_of_mem_set hrow with hrow | heq
        · exact .inl hrow
        · exact .inr (.inl heq)
      · exact .inr (.inr hpairs)
  rcases key _ _ h with hrow | hpairs
  · exact .inl (List.eq_of_mem_replicate hrow)
  · obtain ⟨pair, hpair, rfl⟩ := List.mem_map.mp hpairs
    exact .inr (List.of_mem_zip hpair).2

/-! ## What maps denote -/

variable {s : Settings} {c d : Components} {es fs : List ℚ} {e : Monzo} {l : Literal}

/-- A map over some primes whose entries can be put in their positions. -/
theorem valComponents_eq_ok_iff {entries : List ℚ} {equave : ℚ} :
    valComponents c = .ok (entries, equave) ↔
      (c.basis = [] ∧ entries = c.entries ∧ equave = 2) ∨
      ∃ rest positions, c.basis = equave :: rest ∧ c.entries.length = c.basis.length ∧
        c.basis.mapM valPosition = .ok positions ∧ entries = placeEntries positions c.entries := by
  unfold valComponents
  cases hbasis : c.basis with
  | nil =>
    rw [pure_eq_ok, Prod.mk.injEq]
    constructor
    · rintro ⟨rfl, rfl⟩
      exact .inl ⟨rfl, rfl, rfl⟩
    · rintro (⟨-, rfl, rfl⟩ | ⟨rest, positions, h, -⟩)
      · exact ⟨rfl, rfl⟩
      · cases h
  | cons first rest =>
    simp only
    split
    · next hlen =>
      constructor
      · intro h
        cases h
      · rintro (⟨h, -⟩ | ⟨rest', positions, -, h, -⟩)
        · cases h
        · exact absurd h hlen
    · next hlen =>
      rw [ne_eq, not_not] at hlen
      constructor
      · intro h
        obtain ⟨positions, hpositions, h⟩ := bind_eq_ok.mp h
        cases h
        exact .inr ⟨rest, positions, rfl, hlen, hpositions, rfl⟩
      · rintro (⟨h, -⟩ | ⟨rest', positions, h, -, hpositions, rfl⟩)
        · cases h
        · cases h
          exact bind_eq_ok.mpr ⟨positions, hpositions, rfl⟩

/-- The vector and the equave that a tuning map without ups and lifts denotes. -/
structure IsMap (s : Settings) (c : Components) (es : List ℚ) (e : Monzo) : Prop where
  ups : c.ups = 0
  lifts : c.lifts = 0
  components : ∃ entries equave, valComponents c = .ok (entries, equave) ∧
    es = padded s.numberOfComponents entries ∧ Monzo.ofRatio s equave = .ok e

/-- A tuning map lowers to the vector and the equave that it denotes. -/
theorem IsMap.lowers (h : IsMap s c es e) {m : Monzo} (hm : Monzo.IsVector s m es)
    (context : Option Context) (memo : CommaMemo) : ∃ w, (lower s context (val c)).Returns memo
      (.val { value := .exact w, equave := .exact e, literal := some (val c) }) memo ∧
      Monzo.IsVector s w es := by
  obtain ⟨k, hk⟩ := Context.exists_given (Monzo.one_le_absurdExponent hm.bounded) context
  obtain ⟨hchecked, hw⟩ := hm.checked_eq
  obtain ⟨entries, equave, hcomponents, rfl, he⟩ := h.components
  refine ⟨_, lowerVal_returns_iff.mpr ⟨k, _, hk, ?_, rfl, rfl⟩, hw⟩
  have htime : e.time = 0 := (Monzo.canonical_ofRatio he).2.2
  unfold lowerVal
  rw [hcomponents]
  refine bind_eq_ok.mpr ⟨_, rfl, bind_eq_ok.mpr ⟨_, he, bind_eq_ok.mpr ⟨_, hchecked, ?_⟩⟩⟩
  rw [h.ups, h.lifts, withArrows_zero]
  show Val.make _ _ _ = _
  unfold Val.make
  rw [if_pos]
  · rfl
  · simp [Value.isScalar, Value.time, htime]

/-! ## Operations -/

theorem IsMap.scale (h : IsMap s c es e) (k : Int) :
    IsMap s (scaleComponents k c) (es.map (· * (k : ℚ))) e := by
  have h0 : (0 : ℚ) * k = 0 := zero_mul _
  refine ⟨by simp [scaleComponents, h.ups], by simp [scaleComponents, h.lifts], ?_⟩
  obtain ⟨entries, equave, hcomponents, rfl, he⟩ := h.components
  refine ⟨entries.map (· * (k : ℚ)), equave, ?_, map_padded (f := (· * (k : ℚ))) h0 _ _, he⟩
  rw [valComponents_eq_ok_iff] at hcomponents ⊢
  rcases hcomponents with ⟨hbasis, rfl, rfl⟩ | ⟨rest, positions, hbasis, hlen, hpos, rfl⟩
  · exact .inl ⟨hbasis, rfl, rfl⟩
  · refine .inr ⟨rest, positions, hbasis, ?_, hpos, ?_⟩
    · show (c.entries.map _).length = _
      rw [List.length_map]
      exact hlen
    · exact (placeEntries_map (f := (· * (k : ℚ))) h0 positions c.entries).symm

theorem combineComponents_eq_some_iff {sign : Int} {k : Components} :
    combineComponents sign c d = some k ↔
      (c.basis = d.basis ∧ ¬ (!c.basis.isEmpty ∧ c.entries.length ≠ d.entries.length)) ∧
        { c with
          entries := zipEntries (fun x y => x + sign * y) c.entries d.entries
          ups := c.ups + sign * d.ups
          lifts := c.lifts + sign * d.lifts } = k := by
  unfold combineComponents
  rw [Option.ite_none_left_eq_some, not_or, not_not, Option.some_inj]

/-- Entries over one basis are combined before or after they are put in their positions. -/
theorem valComponents_combine {sign : Int} {k : Components} {xs ys : List ℚ} {equave equave' : ℚ}
    (hk : combineComponents sign c d = some k) (hxs : valComponents c = .ok (xs, equave))
    (hys : valComponents d = .ok (ys, equave')) :
    valComponents k = .ok (zipEntries (fun x y => x + sign * y) xs ys, equave) := by
  obtain ⟨⟨hbasis, -⟩, rfl⟩ := combineComponents_eq_some_iff.mp hk
  have h0 : (0 : ℚ) + sign * 0 = 0 := by ring
  rw [valComponents_eq_ok_iff] at hxs hys ⊢
  rcases hxs with ⟨hnil, rfl, rfl⟩ | ⟨rest, positions, hcons, hl, hpos, rfl⟩
  · rcases hys with ⟨-, rfl, -⟩ | ⟨rest, positions, hcons, -⟩
    · exact .inl ⟨hnil, rfl, rfl⟩
    · rw [← hbasis, hnil] at hcons
      cases hcons
  · rcases hys with ⟨hnil, -⟩ | ⟨rest', positions', hcons', hl', hpos', rfl⟩
    · rw [← hbasis, hcons] at hnil
      cases hnil
    · rw [← hbasis, hpos] at hpos'
      cases hpos'
      have hll : c.entries.length = d.entries.length := by rw [hl, hl', hbasis]
      refine .inr ⟨rest, positions, hcons, ?_, hpos, ?_⟩
      · show (zipEntries _ c.entries d.entries).length = _
        rw [length_zipEntries, ← hll, max_self]
        exact hl
      · show _ = placeEntries positions (zipEntries _ c.entries d.entries)
        rw [zipEntries_of_length_eq hll,
          zipEntries_of_length_eq (by rw [length_placeEntries, length_placeEntries]),
          placeEntries_zipWith (f := fun x y => x + sign * y) h0 positions hll]

/-- Maps over one basis are combined entry by entry. -/
theorem IsMap.combine {sign : Int} {k : Components} {e' : Monzo} (hc : IsMap s c es e)
    (hd : IsMap s d fs e') (hk : combineComponents sign c d = some k) :
    IsMap s k (zipEntries (fun x y => x + sign * y) es fs) e := by
  have h0 : (0 : ℚ) + sign * 0 = 0 := by ring
  obtain ⟨xs, equave, hxs, rfl, he⟩ := hc.components
  obtain ⟨ys, equave', hys, rfl, -⟩ := hd.components
  have hcomponents := valComponents_combine hk hxs hys
  obtain ⟨-, rfl⟩ := combineComponents_eq_some_iff.mp hk
  refine ⟨?_, ?_, _, equave, hcomponents,
    zipEntries_padded (f := fun x y => x + sign * y) h0 _ _ _, he⟩
  · show c.ups + sign * d.ups = 0
    rw [hc.ups, hd.ups, mul_zero, add_zero]
  · show c.lifts + sign * d.lifts = 0
    rw [hc.lifts, hd.lifts, mul_zero, add_zero]

end Intonation.Literal
