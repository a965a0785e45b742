import Intonation.Proofs.Monzo.Folding
import Intonation.Proofs.Value.Bounded

/-!
# Geometric inversion

The geometric inverse of a value scales its vector, over all the primes that the value needs, by
the reciprocal of its squared length. Doing so twice gives the vector back, so that the second
inverse is strictly equal to the value, over however many primes it is.

## Main definitions

* `Monzo.dual`: the vector in the same direction that pairs to one
* `Monzo.Unfolds`: a value is a vector, over the primes of the vector
* `Monzo.Directed`: values that have a direction

## Main statements

* `dual_dual`, `pairing_dual`: duality of vectors
* `Unfolds.strictEquals`: vectors are strictly equal to what unfolds to them
* `Directed.barring_geometricInverse`: the geometric inverse of a value
* `IsVector.barring_geometricInverse`: that of a vector
-/

namespace Intonation.Monzo
open Double Intonation.Prime

variable {s t u : Settings} {a b g m n w : Monzo} {es fs : List ℚ} {r : ℚ} {k count : Nat}

/-! ## Dual vectors -/

/-- The vector in the same direction that pairs to one. -/
def dual (es : List ℚ) : List ℚ := es.map (· * (pairing es es)⁻¹)

theorem length_dual (es : List ℚ) : (dual es).length = es.length := List.length_map _

/-- The dual vector is shorter in the proportion in which the vector is longer than one. -/
theorem pairing_dual_dual (es : List ℚ) : pairing (dual es) (dual es) = (pairing es es)⁻¹ := by
  rw [dual, pairing_map_mul]
  rcases eq_or_ne (pairing es es) 0 with h0 | h0
  · rw [h0, inv_zero, mul_zero]
  · rw [mul_assoc, inv_mul_cancel₀ h0, mul_one]

theorem pairing_dual (h : pairing es es ≠ 0) : pairing es (dual es) = 1 := by
  have hmap := pairing_map_mul es 1 (pairing es es)⁻¹
  simp only [mul_one, List.map_id'] at hmap
  rw [dual, hmap, one_mul, inv_mul_cancel₀ h]

theorem pairing_dual_ne_zero (h : pairing es es ≠ 0) : pairing (dual es) (dual es) ≠ 0 := by
  rw [pairing_dual_dual]
  exact inv_ne_zero h

theorem dual_dual (h : pairing es es ≠ 0) : dual (dual es) = es := by
  rw [dual, pairing_dual_dual, dual, List.map_map]
  conv_rhs => rw [← List.map_id es]
  refine List.map_congr_left fun e _ => ?_
  simp only [Function.comp_apply, inv_inv, id_eq]
  rw [mul_assoc, inv_mul_cancel₀ h, mul_one]

theorem pairing_comm (es fs : List ℚ) : pairing es fs = pairing fs es := by
  rw [pairing_eq_sum es fs (.inl le_rfl), pairing_eq_sum fs es (.inr le_rfl)]
  exact Finset.sum_congr rfl fun k _ => mul_comm _ _

theorem pairing_padded (count : Nat) (es : List ℚ) :
    pairing (padded count es) (padded count es) = pairing es es := by
  rw [pairing_eq_sum (padded count es) _ (.inl (le_max_left _ es.length)),
    pairing_eq_sum es _ (.inl (le_max_right (padded count es).length _))]
  simp only [getD_padded]

theorem dual_padded (count : Nat) (es : List ℚ) :
    dual (padded count es) = padded count (dual es) := by
  rw [dual, pairing_padded, dual, map_padded (f := (· * (pairing es es)⁻¹)) (zero_mul _)]

/-! ## Unfolding -/

/-- Over the primes of a vector, a value is the vector. -/
structure Unfolds (m : Monzo) (es : List ℚ) : Prop where
  reaches : m.Reaches es.length
  spread : Monzo.spread es.length m.parts = (es, 1)

theorem IsVector.unfolds (h : IsVector t m es) : m.Unfolds es := by
  have hlen : m.components = es.length := h.components
  refine ⟨hlen ▸ Reaches.refl m, ?_⟩
  rw [h.parts_eq]
  exact spread_of_le le_rfl

namespace Unfolds

theorem coordinate_eq (h : m.Unfolds es) (k : Nat) : coordinate m.parts k = es.getD k 0 := by
  rw [← coordinate_spread es.length, h.spread, coordinate_one]

theorem residual_ne_zero (h : m.Unfolds es) : m.residual ≠ 0 := by
  refine spread_ne_zero_iff.mp (?_ : (Monzo.spread es.length m.parts).2 ≠ 0)
  rw [h.spread]
  exact one_ne_zero

/-- Over more primes there are zeros behind the vector. -/
theorem extended (h : m.Unfolds es) (hle : es.length ≤ count)
    (hcount : count ≤ tableSize ∨ es.length = count) : m.Unfolds (padded count es) := by
  have hlen : (padded count es).length = count := (length_padded count es).trans (max_eq_left hle)
  have h0 := h.residual_ne_zero
  obtain ⟨⟨hcomponents, hreaches⟩, hspread⟩ := h
  refine ⟨⟨?_, ?_⟩, ?_⟩
  · omega
  · omega
  · rw [hlen]
    rcases hcount with htable | rfl
    · rw [← spread_spread hle htable h0, hspread, spread_one htable]
    · rw [hspread, padded_of_le le_rfl]

theorem of_parts_eq (h : m.Unfolds es) (hparts : n.parts = m.parts) : n.Unfolds es := by
  have hcomponents : n.components = m.components := congrArg (·.1.length) hparts
  exact ⟨⟨hcomponents.trans_le h.reaches.1, h.reaches.2.imp_right hcomponents.trans⟩,
    hparts ▸ h.spread⟩

/-- Pairing with a scalar without real correction pairs the vectors. -/
theorem dot_eq (hm : m.Unfolds es) (hn : n.Unfolds fs) (htime : m.time = 0) (hcents : m.cents == 0)
    (h : m.dot s n = .ok r) : r = pairing es fs := by
  obtain ⟨-, -, hr⟩ := dot_eq_sum h htime hcents (le_max_left _ es.length)
  rw [hr, pairing_eq_sum es fs (.inl (le_max_right (max tableSize m.components) _))]
  simp only [hm.coordinate_eq, hn.coordinate_eq]

/-- A vector is strictly equal to what unfolds to it. -/
theorem strictEquals (h : m.Unfolds es) (htime : m.time = 0) (hcents : m.cents == 0)
    (hw : IsVector s w es) : w.strictEquals s m = .ok true := by
  have hlen : w.components = es.length := hw.components
  have hparts : w.parts = Monzo.spread w.components m.parts := by
    rw [hw.parts_eq, hlen, h.spread]
  have hwide : ∃ c, m.widen s w.components = .ok c := by
    rcases h.reaches.2 with htable | heq
    · exact exists_widen (hlen.trans_le htable) hcents hw.uncorrected hw.bounded hparts
    · exact ⟨m, by rw [widen, if_neg (by omega)]⟩
  obtain ⟨c, hc⟩ := hwide
  exact strictEquals_of_widen (hlen ▸ h.reaches.1) hc hparts (hw.time.trans htime.symm)
    hw.uncorrected hcents

end Unfolds

/-! ## Values with a direction -/

/-- A positive scalar other than one, without real correction, all of whose primes are primes of the
table. -/
structure Directed (m : Monzo) : Prop where
  scalar : m.time = 0
  uncorrected : m.cents == 0
  positive : 0 < m.residual
  overTable : Ratio.OverTable m.residual
  notUnity : m.isUnity = false
  bounded : m.IsBounded

/-- A vector that is not zero has a direction. -/
theorem IsVector.directed (h : IsVector t m es) (h0 : pairing es es ≠ 0) : m.Directed where
  scalar := h.time
  uncorrected := h.uncorrected
  positive := h.residual ▸ one_pos
  overTable p _ hval := by
    rw [h.residual, padicValRat.one] at hval
    exact absurd rfl hval
  notUnity := by
    rw [Bool.eq_false_iff, ne_eq, h.isUnity_iff, ← pairing_self_eq_zero_iff]
    exact h0
  bounded := ⟨t, h.bounded⟩

/-- So does a value whose residual is a prime of the table. -/
theorem directed_of_prime {p : Nat} (hp : p ∈ table) (hres : m.residual = p) (htime : m.time = 0)
    (hcents : m.cents == 0) (hbounded : m.IsBounded) : m.Directed where
  scalar := htime
  uncorrected := hcents
  positive := by
    rw [hres]
    exact_mod_cast (prime_of_mem_table hp).pos
  overTable := hres ▸ overTable_prime hp
  notUnity := by
    have hone : m.residual ≠ 1 := by
      rw [hres]
      exact_mod_cast (prime_of_mem_table hp).one_lt.ne'
    rw [isUnity, isEqualTemperament]
    simp only [hone, decide_false, Bool.and_false, Bool.false_and]
  bounded := hbounded

theorem residual_of_folded (h : m.folded s = .ok n) : n.residual = 1 := by
  unfold Monzo.folded at h
  split at h
  · next hone =>
    cases h
    exact hone
  · split at h
    · cases h
    · obtain ⟨result, -, h⟩ := bind_eq_ok.mp h
      split at h
      · next hone =>
        cases h
        exact hone
      · cases h

theorem IsBounded.widen (hm : m.IsBounded) (h : m.widen s count = .ok n) : n.IsBounded := by
  unfold Monzo.widen at h
  split at h
  · obtain ⟨parts, -, h⟩ := bind_eq_ok.mp h
    obtain ⟨hbounded, rfl⟩ := checked_eq_ok_iff.mp h
    exact ⟨s, hbounded⟩
  · cases h
    exact hm

/-- What is not folded has no geometric inverse. -/
theorem geometricInverse_of_error {f : Fault} (h : m.folded s = .error f) :
    m.geometricInverse s = .error f := by
  unfold Monzo.geometricInverse dot
  rw [h]
  rfl

section
variable (hfolded : m.folded s = .ok n) (hn : IsVector t n es)
include hfolded hn

theorem dot_of_folded : m.dot s m = .ok (pairing es es) := by
  rw [← hn.dot (s := s) hn]
  unfold dot
  rw [hfolded, hn.folded]

/-- The geometric inverse is that of the vector. -/
theorem geometricInverse_of_folded (h0 : pairing es es ≠ 0) :
    m.geometricInverse s = n.geometricInverse s := by
  unfold Monzo.geometricInverse
  rw [dot_of_folded hfolded hn, hn.dot hn, hfolded, hn.folded]
  show (if _ then _ else _ : Except Fault Monzo) = (if _ then _ else _)
  rw [if_neg h0, if_neg h0]

end

/-- The geometric inverse of a vector that is not zero is the dual vector. -/
theorem IsVector.barring_geometricInverse (h : IsVector t m es) (h0 : pairing es es ≠ 0) :
    Barring False (IsVector s · (dual es)) (m.geometricInverse s) := by
  have hbarring : Barring False (fun _ => True) (m.geometricInverse s) := by
    unfold Monzo.geometricInverse
    rw [h.dot h]
    show Barring _ _ (if pairing es es = 0 then _ else _)
    rw [if_neg h0, h.folded]
    refine (Number.barring_toDouble False (pairing es es)⁻¹).bind fun x hx => ?_
    refine (barring_checked (m := {
      time := m.time * (pairing es es)⁻¹
      exps := m.exps.map (· * (pairing es es)⁻¹)
      cents := m.cents * x }) False ?_ (beq_zero_mul h.uncorrected hx)).mono fun _ _ => trivial
    rw [← List.map_drop, List.forall_mem_map]
    intro e he
    rw [vanish_of_bounded h.bounded e he, zero_mul]
  exact (hbarring.and_of_ok fun g hg => h.geometricInverse hg).mono fun _ hg => hg.2

namespace Directed

variable (hm : m.Directed) (hf : m.Foldable)
include hm hf

/-- The residual is moved into the exponents, and the vector is not zero. -/
theorem barring_folded : Barring False (fun n => m.Unfolds n.exps ∧ pairing n.exps n.exps ≠ 0 ∧
    ∃ t, IsVector t n n.exps) (m.folded s) := by
  obtain ⟨limit, -, hfolded⟩ := hf.folded_eq_widen (s := s) hm.positive hm.overTable
  refine ((hf.barring_folded hm.positive hm.overTable
    (not_isNaN_of_beq_zero hm.uncorrected)).and_of_ok fun n hn => ?_).mono fun n hn => hn.2
  have hwiden := hfolded ▸ hn
  obtain ⟨hparts, htime, hcents⟩ := parts_of_widen hwiden
  have hcomponents : n.components = max m.components limit := components_of_widen hwiden
  obtain ⟨t, hbounded⟩ := hm.bounded.widen hwiden
  have hvector : IsVector t n n.exps := ⟨htime.trans hm.scalar, rfl, residual_of_folded hn,
    hcents ▸ hm.uncorrected, hbounded⟩
  have hunfolds : m.Unfolds n.exps := by
    have hreaches := Reaches.of_widen hwiden
    rw [← hcomponents] at hreaches
    refine ⟨hreaches, ?_⟩
    show spread n.components m.parts = _
    rw [← hvector.parts_eq, hparts, hcomponents]
    exact spread_max limit m.parts
  refine ⟨hunfolds, fun h0 => ?_, t, hvector⟩
  rw [pairing_self_eq_zero_iff] at h0
  rcases hf with hone | ⟨p, hp, hmem, hval⟩
  · rw [Monzo.folded, if_pos hone] at hn
    cases hn
    exact absurd (hvector.isUnity_iff.mpr h0) (by simp [hm.notUnity])
  · -- the prime of the residual has an exponent in the vector
    obtain ⟨k, hk, rfl⟩ := List.mem_iff_getElem.mp hp
    have hlt : k < tableSize := hk.trans_eq length_table
    rw [← atPosition_of_lt hk, atPosition_mem_take_iff hlt, not_lt] at hmem
    rw [← atPosition_of_lt hk] at hval
    have hcoordinate := hunfolds.coordinate_eq k
    rw [coordinate, parts, List.getD_eq_default _ _ hmem, zero_add] at hcoordinate
    have hne : n.exps.getD k 0 ≠ 0 := by
      rw [← hcoordinate]
      exact_mod_cast hval
    rcases lt_or_ge k n.exps.length with hshort | hlong
    · exact hne (List.getD_eq_getElem _ _ hshort ▸ h0 _ (List.getElem_mem hshort))
    · exact hne (List.getD_eq_default _ _ hlong)

/-- The geometric inverse is the dual of a vector that the value unfolds to. -/
theorem barring_geometricInverse : Barring False (fun g => ∃ es, m.Unfolds es ∧
    pairing es es ≠ 0 ∧ IsVector s g (dual es)) (m.geometricInverse s) := by
  have hbarring := hm.barring_folded hf (s := s)
  cases hfolded : m.folded s with
  | error f =>
    rw [hfolded] at hbarring
    rw [geometricInverse_of_error hfolded]
    exact hbarring
  | ok n =>
    rw [hfolded] at hbarring
    obtain ⟨hunfolds, h0, t, hn⟩ := hbarring
    rw [geometricInverse_of_folded hfolded hn h0]
    exact (hn.barring_geometricInverse h0).mono fun g hg => ⟨n.exps, hunfolds, h0, hg⟩

end Directed

end Intonation.Monzo
