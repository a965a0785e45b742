import Intonation.Monzo.Dot
import Intonation.Proofs.Monzo.Divisors
import Mathlib.Data.List.GetD

/-!
# Coordinates of vectors

The coordinate of a value at a prime is the exponent of the prime together with the exponent that
the prime has in the residual. It does not change when the basis grows, it adds up in products, and
pairing two values sums up the products of their coordinates, wherever the primes are kept.

## Main definitions

* `Monzo.coordinate`: the coordinates of exponents and a residual

## Main statements

* `coordinate_spread`, `coordinate_combined`: growing the basis, and products
* `coordinate_mul`, `coordinate_inverse`, `coordinate_powRatio`: arithmetic of values
* `dot_eq_sum`: pairing is the sum of the products of coordinates
-/

namespace Intonation

namespace Prime

variable {k count : Nat} {q : ℚ}

/-- The prime at a position, and one beyond the table. -/
def atPosition (k : Nat) : Nat := table.getD k 1

theorem lt_length_table (h : k < tableSize) : k < table.length := h.trans_eq length_table.symm

theorem atPosition_of_lt (h : k < table.length) : atPosition k = table[k] :=
  List.getD_eq_getElem _ _ _

theorem atPosition_of_getElem? {p : Nat} (hp : table[k]? = some p) : atPosition k = p := by
  rw [atPosition, List.getD_eq_getElem?_getD, hp]
  rfl

theorem atPosition_of_le (h : tableSize ≤ k) : atPosition k = 1 :=
  List.getD_eq_default _ _ (length_table.trans_le h)

theorem prime_atPosition (h : k < tableSize) : (atPosition k).Prime := by
  rw [atPosition_of_lt (lt_length_table h)]
  exact prime_of_mem_table (List.getElem_mem _)

theorem atPosition_mem_take_iff (h : k < tableSize) :
    atPosition k ∈ table.take count ↔ k < count := by
  rw [atPosition_of_lt (lt_length_table h)]
  exact mem_take_iff (List.getElem?_eq_getElem (lt_length_table h))

/-- Nothing has exponents of one. -/
theorem padicValRat_one_left (q : ℚ) : padicValRat 1 q = 0 := by
  simp [padicValRat, padicValInt]

theorem getD_split (count : Nat) (q : ℚ) (k : Nat) : (split (table.take count) q).1.getD k 0 =
    if k < count then padicValRat (atPosition k) q else 0 := by
  rw [split_exponents (distinct_table.take count)]
  have hlen : ((table.take count).map fun p => padicValRat p q).length = min count tableSize := by
    rw [List.length_map, List.length_take, length_table]
  by_cases hk : k < min count tableSize
  · rw [List.getD_eq_getElem _ _ (hk.trans_eq hlen.symm), List.getElem_map, List.getElem_take,
      atPosition_of_lt (lt_length_table (lt_min_iff.mp hk).2), if_pos (lt_min_iff.mp hk).1]
  · rw [List.getD_eq_default _ _ (hlen.trans_le (not_lt.mp hk))]
    split
    · next hlt =>
      rw [lt_min_iff, not_and, not_lt] at hk
      rw [atPosition_of_le (hk hlt), padicValRat_one_left]
    · rfl

/-- The exponents in a ratio and those in what is left of it add up to its exponents. -/
theorem getD_split_add (count : Nat) (q : ℚ) (k : Nat) :
    (split (table.take count) q).1.getD k 0 +
      padicValRat (atPosition k) (split (table.take count) q).2 = padicValRat (atPosition k) q := by
  rw [getD_split]
  rcases lt_or_ge k tableSize with hk | hk
  · rw [padicValRat_split (distinct_table.take count) (prime_atPosition hk)]
    simp only [atPosition_mem_take_iff hk]
    split <;> simp
  · rw [atPosition_of_le hk, padicValRat_one_left, padicValRat_one_left]
    simp

end Prime

namespace Monzo
open Double Intonation.Prime

variable {s t u : Settings} {a b c m n v : Monzo} {p q : List ℚ × ℚ} {es fs : List ℚ} {x y z : ℚ}
  {k count : Nat}

/-! ## Entries by position -/

theorem getD_wholes (ns : List Int) (k : Nat) :
    (wholes ns).getD k 0 = ((ns.getD k 0 : Int) : ℚ) := by
  have hmap := List.getD_map (n := k) ns 0 fun n : Int => (n : ℚ)
  rwa [Int.cast_zero] at hmap

theorem getD_addExponents (es : List ℚ) (ns : List Int) (k : Nat) :
    (addExponents es ns).getD k 0 = es.getD k 0 + (ns.getD k 0 : Int) := by
  induction es generalizing ns k with
  | nil => rw [addExponents_nil_left, List.getD_nil, zero_add, getD_wholes]
  | cons e es ih =>
    cases ns with
    | nil => simp [addExponents_nil]
    | cons n ns =>
      cases k with
      | zero => rfl
      | succ k =>
        rw [addExponents, List.getD_cons_succ, List.getD_cons_succ, List.getD_cons_succ, ih]

theorem getD_zipWith {op : ℚ → ℚ → ℚ} (h0 : op 0 0 = 0) (hlen : es.length = fs.length) (k : Nat) :
    (es.zipWith op fs).getD k 0 = op (es.getD k 0) (fs.getD k 0) := by
  have hzip : (es.zipWith op fs).length = es.length := by
    rw [List.length_zipWith, ← hlen, min_self]
  by_cases hk : k < es.length
  · rw [List.getD_eq_getElem _ _ (hk.trans_eq hzip.symm), List.getElem_zipWith,
      List.getD_eq_getElem _ _ hk, List.getD_eq_getElem _ _ (hk.trans_eq hlen)]
  · have hle := not_lt.mp hk
    rw [List.getD_eq_default _ _ (hzip.trans_le hle), List.getD_eq_default _ _ hle,
      List.getD_eq_default _ _ (hlen.symm.trans_le hle), h0]

/-- Pairing sums up the products of entries, as far as either list reaches. -/
theorem pairing_eq_sum (es fs : List ℚ) {N : Nat} (h : es.length ≤ N ∨ fs.length ≤ N) :
    pairing es fs = ∑ k ∈ Finset.range N, es.getD k 0 * fs.getD k 0 := by
  induction es generalizing fs N with
  | nil => simp [pairing]
  | cons e es ih =>
    cases fs with
    | nil => simp [pairing]
    | cons f fs =>
      cases N with
      | zero => simp at h
      | succ N =>
        rw [pairing, Finset.sum_range_succ', ih fs (by simpa using h), add_comm]
        rfl

/-! ## Coordinates -/

/-- The exponent of the prime at a position, in the exponents and in the residual together. -/
def coordinate (p : List ℚ × ℚ) (k : Nat) : ℚ := p.1.getD k 0 + padicValRat (atPosition k) p.2

theorem coordinate_one (es : List ℚ) (k : Nat) : coordinate (es, 1) k = es.getD k 0 := by
  rw [coordinate, padicValRat.one, Int.cast_zero, add_zero]

/-- Beyond the table and the exponents there are no coordinates. -/
theorem coordinate_of_le (p : List ℚ × ℚ) (hk : tableSize ≤ k) (hlen : p.1.length ≤ k) :
    coordinate p k = 0 := by
  rw [coordinate, List.getD_eq_default _ _ hlen, atPosition_of_le hk, padicValRat_one_left,
    Int.cast_zero, add_zero]

/-- Growing the basis moves exponents, and leaves the coordinates. -/
theorem coordinate_spread (count : Nat) (p : List ℚ × ℚ) (k : Nat) :
    coordinate (spread count p) k = coordinate p k := by
  by_cases hlt : p.1.length < count
  · rw [spread, if_pos hlt, coordinate, coordinate, getD_addExponents, add_assoc, ← Int.cast_add,
      getD_split_add]
  · rw [spread_of_le (not_lt.mp hlt)]

/-- The exponents that a prime at any position has in a product. -/
theorem padicValRat_atPosition_mul (hx : x ≠ 0) (hy : y ≠ 0) (k : Nat) :
    padicValRat (atPosition k) (x * y) =
      padicValRat (atPosition k) x + padicValRat (atPosition k) y := by
  rcases lt_or_ge k tableSize with hk | hk
  · have := Fact.mk (prime_atPosition hk)
    exact padicValRat.mul hx hy
  · rw [atPosition_of_le hk, padicValRat_one_left, padicValRat_one_left, padicValRat_one_left,
      add_zero]

theorem padicValRat_atPosition_zpow (x : ℚ) (i : Int) (k : Nat) :
    padicValRat (atPosition k) (x ^ i) = i * padicValRat (atPosition k) x := by
  rcases lt_or_ge k tableSize with hk | hk
  · have := Fact.mk (prime_atPosition hk)
    exact padicValRat.zpow x
  · rw [atPosition_of_le hk, padicValRat_one_left, padicValRat_one_left, mul_zero]

theorem coordinate_combined (hlen : p.1.length = q.1.length) (hp : p.2 ≠ 0) (hq : q.2 ≠ 0)
    (k : Nat) : coordinate (combined p q) k = coordinate p k + coordinate q k := by
  rw [coordinate, combined, getD_zipWith (add_zero 0) hlen, padicValRat_atPosition_mul hp hq,
    coordinate, coordinate]
  push_cast
  ring

/-- The coordinates of a whole power. -/
theorem coordinate_zpow (p : List ℚ × ℚ) (i : Int) (k : Nat) :
    coordinate (p.1.map (· * (i : ℚ)), p.2 ^ i) k = i * coordinate p k := by
  have hmap : (p.1.map (· * (i : ℚ))).getD k 0 = p.1.getD k 0 * i := by
    have hget := List.getD_map (n := k) p.1 0 (· * (i : ℚ))
    rwa [zero_mul] at hget
  rw [coordinate, hmap, padicValRat_atPosition_zpow, coordinate]
  push_cast
  ring

/-! ### Coordinates of results -/

theorem coordinate_mul (h : a.mul s b = .ok c) (ha : a.residual ≠ 0) (hb : b.residual ≠ 0)
    (k : Nat) : coordinate c.parts k = coordinate a.parts k + coordinate b.parts k := by
  obtain ⟨⟨a', b'⟩, halign, -⟩ := bind_eq_ok.mp h
  obtain ⟨hparts, -⟩ := parts_of_mul h
  obtain ⟨hparta, hpartb, -⟩ := parts_of_align halign
  obtain ⟨hlena, hlenb⟩ := components_of_align halign
  have hlen : (spread b.components a.parts).1.length = (spread a.components b.parts).1.length := by
    rw [← hparta, ← hpartb]
    exact hlena.trans hlenb.symm
  rw [hparts, coordinate_combined hlen (spread_ne_zero_iff.mpr ha) (spread_ne_zero_iff.mpr hb),
    coordinate_spread, coordinate_spread]

theorem coordinate_inverse (h : a.inverse s = .ok (.exact c)) :
    a.residual ≠ 0 ∧ ∀ k, coordinate c.parts k = -coordinate a.parts k := by
  unfold Monzo.inverse at h
  split at h
  · cases h
  · next h0 =>
    obtain ⟨m, hm, heq⟩ := map_eq_ok.mp h
    cases heq
    obtain ⟨-, rfl⟩ := checked_eq_ok_iff.mp hm
    refine ⟨h0, fun k => ?_⟩
    have hparts : a.reciprocal.parts =
        (a.parts.1.map (· * ((-1 : Int) : ℚ)), a.parts.2 ^ (-1 : Int)) := by
      refine Prod.ext (List.map_congr_left fun e _ => ?_) (zpow_neg_one a.residual).symm
      push_cast
      ring
    rw [hparts, coordinate_zpow]
    push_cast
    ring

/-- Powers that are taken as irrational are real. -/
theorem irrationalPow_ne_exact (m c : Monzo) (e : Float) :
    m.irrationalPow s e ≠ .ok (.exact c) := by
  intro h
  unfold irrationalPow at h
  split at h
  · cases h
  · obtain ⟨r, -, hr⟩ := map_eq_ok.mp h
    cases hr

theorem den_lt_of_powRatio (h : a.powRatio s x = .ok (.exact c)) : x.den < s.maxPowDenominator := by
  by_contra hge
  rw [powRatio, if_pos (not_lt.mp hge)] at h
  obtain ⟨e, -, he⟩ := bind_eq_ok.mp h
  exact irrationalPow_ne_exact a c e he

/-- The coordinates of an exact whole power are multiples. -/
theorem coordinate_powRatio {i : Int} (h : a.powRatio s i = .ok (.exact c)) (ha : a.residual ≠ 0) :
    (∀ k, coordinate c.parts k = i * coordinate a.parts k) ∧ c.time = a.time * i ∧
      (a.cents == 0 → c.cents == 0) := by
  have hpow : Ratio.pow? a.residual i = some (a.residual ^ i) := by
    rw [Ratio.pow?_intCast, if_neg fun h0 => ha h0.1]
  -- a whole power of a residual other than zero is rational, so that only the first case is left
  obtain ⟨e, -, he, ⟨q, m, hq, heq, hm⟩ | ⟨hnone, -⟩ | ⟨hnone, -⟩⟩ :=
    powRatio_spec (den_lt_of_powRatio h) h
  · rw [hpow] at hq
    cases hq
    cases heq
    obtain ⟨-, rfl⟩ := checked_eq_ok_iff.mp hm
    exact ⟨coordinate_zpow a.parts i, rfl, fun hcents => beq_zero_mul hcents he⟩
  · rw [hpow] at hnone
    cases hnone
  · rw [hpow] at hnone
    cases hnone

/-! ## Pairing -/

/-- What folding the residual into the exponents gives. -/
structure Folded (m n : Monzo) : Prop where
  residual_ne_zero : m.residual ≠ 0
  time : n.time = m.time
  cents : n.cents = m.cents
  exps : ∀ k, n.exps.getD k 0 = coordinate m.parts k

theorem folded_spec (h : m.folded s = .ok n) : Folded m n := by
  unfold folded at h
  split at h
  · next hone =>
    cases h
    refine ⟨hone.symm ▸ one_ne_zero, rfl, rfl, fun k => ?_⟩
    rw [parts, hone, coordinate_one]
  · split at h
    · cases h
    · next limit hlimit =>
      obtain ⟨result, hresult, h⟩ := bind_eq_ok.mp h
      split at h
      · next hone =>
        cases h
        -- the larger size is at least that of the basis, so that resizing grows it
        have hwiden : m.widen s (max limit m.components) = .ok n := by
          unfold resize at hresult
          unfold widen
          rw [if_neg (by omega)] at hresult
          split at hresult
          · next hlt => rw [if_pos hlt, hresult]
          · next hle => rw [if_neg hle, (checked_eq_ok_iff.mp hresult).2]
        obtain ⟨hparts, htime, hcents⟩ := parts_of_widen hwiden
        refine ⟨fun h0 => ?_, htime, hcents, fun k => ?_⟩
        · rw [primeLimit, if_pos h0] at hlimit
          cases hlimit
        · rw [← coordinate_spread (max limit m.components), ← hparts, parts, hone, coordinate_one]
      · cases h

/-- Pairing with a scalar without real correction sums up the products of coordinates. -/
theorem dot_eq_sum {r : ℚ} (h : a.dot s b = .ok r) (htime : a.time = 0) (hcents : a.cents == 0)
    {N : Nat} (hN : max tableSize a.components ≤ N) : a.residual ≠ 0 ∧ b.residual ≠ 0 ∧
      r = ∑ k ∈ Finset.range N, coordinate a.parts k * coordinate b.parts k := by
  obtain ⟨a', ha, h⟩ := bind_eq_ok.mp h
  obtain ⟨b', hb, h⟩ := bind_eq_ok.mp h
  obtain ⟨correction, hcorrection, h⟩ := bind_eq_ok.mp h
  have hfa := folded_spec ha
  have hfb := folded_spec hb
  have hzero : correction = 0 := by
    rw [correctionProduct, hfa.cents, hcents] at hcorrection
    cases hcorrection
    rfl
  cases h
  refine ⟨hfa.residual_ne_zero, hfb.residual_ne_zero, ?_⟩
  rw [hzero, hfa.time, htime, zero_mul, zero_add, add_zero,
    pairing_eq_sum a'.exps b'.exps (.inl (le_max_left a'.components N))]
  simp only [hfa.exps, hfb.exps]
  -- beyond the table and the exponents there is nothing to be added
  refine (Finset.sum_subset (Finset.range_mono (le_max_right _ _)) fun k _ hk => ?_).symm
  have hle : N ≤ k := not_lt.mp fun hlt => hk (Finset.mem_range.mpr hlt)
  rw [coordinate_of_le a.parts ((le_max_left _ _).trans (hN.trans hle))
    ((le_max_right _ _).trans (hN.trans hle)), zero_mul]

end Monzo

end Intonation
