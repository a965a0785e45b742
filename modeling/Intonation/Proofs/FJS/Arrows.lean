import Intonation.FJS.Arrows
import Intonation.Proofs.Double.Zero
import Intonation.Proofs.Outcome

/-!
# Counting no ups and lifts

A correction of zero is made up of no ups and lifts, whatever their sizes: on the way, the
correction that is left stays a zero or is no number, and then it cannot be counted. Between finite
sizes it stays a zero, so that counting does not fail.

## Main definitions

* `IsBlank`: a zero, or no number

## Main statements

* `ArrowCount.eq_zero_of_ofCents`: a zero counts no ups and lifts
* `ArrowCount.exists_ofCents`: a zero is counted between finite sizes
-/

namespace Intonation
open Double Float.Model Float.Model.UnpackedFloat

namespace Double

/-- A zero of either sign, or no number. -/
def IsBlank (x : Float) : Prop := (∃ s, parts x = .zero s) ∨ parts x = .notANumber

variable {x y : Float}

theorem IsBlank.of_beq_zero (h : x == 0) : IsBlank x := .inl (beq_zero_iff.mp h)

theorem parts_sub (x y : Float) :
    parts (x - y) = unpack Format.binary64 (UnpackedFloat.pack Format.binary64
      (UnpackedFloat.sub Format.binary64 (parts x) (parts y))) := rfl

theorem unpack_pack_notANumber :
    unpack Format.binary64 (UnpackedFloat.pack Format.binary64 .notANumber) = .notANumber := rfl

namespace IsBlank

theorem div (hx : IsBlank x) (y : Float) : IsBlank (x / y) := by
  rw [IsBlank, parts_div]
  rcases hx with ⟨s, hx⟩ | hx
  · rcases hy : parts y with t | _ | t | ⟨t, m, e, hm⟩ <;> rw [hx]
    · exact .inl ⟨_, unpack_pack_zero _⟩
    · exact .inr unpack_pack_notANumber
    · exact .inr unpack_pack_notANumber
    · exact .inl ⟨_, unpack_pack_zero _⟩
  · rw [hx]
    exact .inr unpack_pack_notANumber

theorem mul (hx : IsBlank x) (y : Float) : IsBlank (x * y) := by
  rw [IsBlank, parts_mul]
  rcases hx with ⟨s, hx⟩ | hx
  · rcases hy : parts y with t | _ | t | ⟨t, m, e, hm⟩ <;> rw [hx]
    · exact .inr unpack_pack_notANumber
    · exact .inr unpack_pack_notANumber
    · exact .inl ⟨_, unpack_pack_zero _⟩
    · exact .inl ⟨_, unpack_pack_zero _⟩
  · rw [hx]
    exact .inr unpack_pack_notANumber

theorem sub (hx : IsBlank x) (hy : IsBlank y) : IsBlank (x - y) := by
  rw [IsBlank, parts_sub]
  rcases hx with ⟨s, hx⟩ | hx
  · rcases hy with ⟨t, hy⟩ | hy <;> rw [hx, hy]
    · cases s <;> cases t <;> exact .inl ⟨_, unpack_pack_zero _⟩
    · exact .inr unpack_pack_notANumber
  · rw [hx]
    exact .inr unpack_pack_notANumber

end IsBlank

end Double

namespace ArrowCount

variable {total size up lift : Float} {k : Int} {rest : Float} {ups lifts : Int} {c : ArrowCount}

theorem eq_zero_of_round {x : Float} (hx : IsBlank x) (h : round x = .ok k) : k = 0 := by
  rcases hx with hzero | hnan
  · rcases eq_or_eq_of_beq_zero (beq_zero_iff.mpr hzero) with rfl | rfl
    · have hround : round 0 = .ok 0 := by decide +kernel
      rw [hround] at h
      exact (Except.ok.inj h).symm
    · have hround : round (-0.0) = .ok 0 := by decide +kernel
      rw [hround] at h
      exact (Except.ok.inj h).symm
  · -- what is no number has no nearest integer
    obtain rfl : x = Double.notANumber := parts_injective (hnan.trans rfl)
    have hround : round Double.notANumber = .error .notANumber := by decide +kernel
    rw [hround] at h
    cases h

/-- What is blank counts no inflections of any size and stays blank. -/
theorem of_take (ht : IsBlank total) (h : take total size = .ok (k, rest)) :
    k = 0 ∧ IsBlank rest := by
  obtain ⟨count, hcount, h⟩ := bind_eq_ok.mp h
  obtain rfl := eq_zero_of_round (ht.div size) hcount
  cases h
  exact ⟨rfl, ht.sub (IsBlank.mul (.of_beq_zero (by decide +kernel)) size)⟩

theorem of_finish (h : finish ups lifts total = .ok c) : c.ups = ups ∧ c.lifts = lifts := by
  obtain ⟨steps, -, h⟩ := bind_eq_ok.mp h
  cases h
  exact ⟨rfl, rfl⟩

/-- A correction of zero counts no ups and lifts, whatever their sizes. -/
theorem eq_zero_of_ofCents (ht : total == 0) (h : ofCents total up lift = .ok c) :
    c.ups = 0 ∧ c.lifts = 0 := by
  have hblank := IsBlank.of_beq_zero ht
  unfold ofCents at h
  split at h
  · exact of_finish h
  · split at h
    · obtain ⟨⟨lifts, left⟩, hlifts, h⟩ := bind_eq_ok.mp h
      obtain ⟨⟨ups, rest⟩, hups, h⟩ := bind_eq_ok.mp h
      obtain ⟨rfl, hleft⟩ := of_take hblank hlifts
      obtain ⟨rfl, -⟩ := of_take hleft hups
      exact of_finish h
    · obtain ⟨⟨ups, left⟩, hups, h⟩ := bind_eq_ok.mp h
      obtain ⟨⟨lifts, rest⟩, hlifts, h⟩ := bind_eq_ok.mp h
      obtain ⟨rfl, hleft⟩ := of_take hblank hups
      obtain ⟨rfl, -⟩ := of_take hleft hlifts
      exact of_finish h

/-! ## Counting never fails -/

theorem round_of_beq_zero {x : Float} (hx : x == 0) : round x = .ok 0 := by
  rcases eq_or_eq_of_beq_zero hx with rfl | rfl <;> decide +kernel

/-- A zero counts no inflections of a size that is positive. -/
theorem exists_take (ht : total == 0) (hsize : size.isFinite) (hpos : ¬ size ≤ 0) :
    ∃ rest, take total size = .ok (0, rest) ∧ rest == 0 := by
  have hne : ¬ size == 0 := by
    intro hzero
    rcases eq_or_eq_of_beq_zero hzero with rfl | rfl <;> exact hpos (by decide)
  have hzero : nearest 0 == 0 := by decide +kernel
  refine ⟨total - nearest 0 * size, ?_, sub_beq_zero ht (beq_zero_mul hzero hsize)⟩
  exact bind_eq_ok.mpr ⟨0, round_of_beq_zero (beq_zero_div ht hsize hne), rfl⟩

theorem exists_finish (ups lifts : Int) (ht : total == 0) :
    ∃ c, finish ups lifts total = .ok c ∧ c.isExact := by
  have hzero : nearest 0 == 0 := by decide +kernel
  refine ⟨⟨ups, lifts, 0, total - nearest 0⟩,
    bind_eq_ok.mpr ⟨0, round_of_beq_zero ht, rfl⟩, ?_⟩
  rw [isExact, decide_eq_true rfl, Bool.true_and]
  exact sub_beq_zero ht hzero

/-- A correction of zero is counted, and nothing is left over. -/
theorem exists_ofCents (ht : total == 0) (hup : up.isFinite) (hlift : lift.isFinite) :
    ∃ c, ofCents total up lift = .ok c ∧ c.isExact := by
  unfold ofCents
  split
  · exact exists_finish 0 0 ht
  · next hsizes =>
    simp only [Bool.or_eq_true, decide_eq_true_eq, not_or] at hsizes
    split
    · obtain ⟨left, hleft, hzero⟩ := exists_take ht hlift hsizes.2
      obtain ⟨rest, hrest, hzero⟩ := exists_take hzero hup hsizes.1
      obtain ⟨c, hc, hexact⟩ := exists_finish 0 0 hzero
      exact ⟨c, bind_eq_ok.mpr ⟨_, hleft, bind_eq_ok.mpr ⟨_, hrest, hc⟩⟩, hexact⟩
    · obtain ⟨left, hleft, hzero⟩ := exists_take ht hup hsizes.1
      obtain ⟨rest, hrest, hzero⟩ := exists_take hzero hlift hsizes.2
      obtain ⟨c, hc, hexact⟩ := exists_finish 0 0 hzero
      exact ⟨c, bind_eq_ok.mpr ⟨_, hleft, bind_eq_ok.mpr ⟨_, hrest, hc⟩⟩, hexact⟩

end ArrowCount

end Intonation
