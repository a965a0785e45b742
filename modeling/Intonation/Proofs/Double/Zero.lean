import Intonation.Proofs.Double.Words

/-!
# Zeros of either sign

There are two zeros among the doubles. Nothing but signs of zeros tells them apart: zeros add,
subtract and scale to zeros, and adding one to a double leaves the double, or another zero.

## Main definitions

* `Alike`: the same double, or two zeros

## Main statements

* `eq_or_eq_of_beq_zero`: the two zeros
* `add_beq_zero`, `sub_beq_zero`: zeros add and subtract to zeros
* `beq_zero_mul`, `beq_zero_div`: zeros scale to zeros
-/

namespace Intonation.Double
open Float.Model Float.Model.UnpackedFloat

/-! ## The two zeros -/

theorem beq_iff_parts {x y : Float} : x == y ↔ (parts x).beq (parts y) := Iff.rfl

theorem parts_zero : parts (0 : Float) = .zero .positive := rfl

/-- A double is a zero when its parts are those of a zero. -/
theorem beq_zero_iff {x : Float} : x == 0 ↔ ∃ s, parts x = .zero s := by
  rw [beq_iff_parts, parts_zero]
  constructor
  · intro h
    rcases hx : parts x with s | _ | s | ⟨s, m, e, hm⟩
    · rw [hx] at h
      cases s <;> cases h
    · rw [hx] at h
      cases h
    · exact ⟨s, rfl⟩
    · rw [hx] at h
      cases s <;> cases h
  · rintro ⟨s, h⟩
    rw [h]
    rfl

theorem eq_or_eq_of_beq_zero {x : Float} (h : x == 0) : x = 0 ∨ x = -0.0 := by
  obtain ⟨s, hs⟩ := beq_zero_iff.mp h
  cases s with
  | positive => exact .inl (parts_injective (hs.trans rfl))
  | negative => exact .inr (parts_injective (hs.trans rfl))

theorem zero_beq_zero : (0 : Float) == 0 := by decide

theorem not_isNaN_of_beq_zero {x : Float} (h : x == 0) : x.isNaN = false := by
  rcases eq_or_eq_of_beq_zero h with rfl | rfl <;> decide

theorem neg_beq_zero {x : Float} (h : x == 0) : -x == 0 := by
  rcases eq_or_eq_of_beq_zero h with rfl | rfl <;> decide

theorem abs_beq_zero {x : Float} (h : x == 0) : x.abs == 0 := by
  rcases eq_or_eq_of_beq_zero h with rfl | rfl <;> decide

theorem add_beq_zero {x y : Float} (hx : x == 0) (hy : y == 0) : x + y == 0 := by
  rcases eq_or_eq_of_beq_zero hx with rfl | rfl <;>
    rcases eq_or_eq_of_beq_zero hy with rfl | rfl <;> decide

theorem sub_beq_zero {x y : Float} (hx : x == 0) (hy : y == 0) : x - y == 0 := by
  rcases eq_or_eq_of_beq_zero hx with rfl | rfl <;>
    rcases eq_or_eq_of_beq_zero hy with rfl | rfl <;> decide

theorem beq_of_beq_zero {x y : Float} (hx : x == 0) (hy : y == 0) : x == y := by
  rcases eq_or_eq_of_beq_zero hx with rfl | rfl <;>
    rcases eq_or_eq_of_beq_zero hy with rfl | rfl <;> decide

theorem toRat?_of_beq_zero {x : Float} (h : x == 0) : toRat? x = some 0 := by
  have hpos : finite? 0 = some ⟨false, 0, -1074⟩ := by decide
  have hneg : finite? (-0.0) = some ⟨true, 0, -1074⟩ := by decide
  rcases eq_or_eq_of_beq_zero h with rfl | rfl
  · simp [toRat?, hpos, Finite.toRat]
  · simp [toRat?, hneg, Finite.toRat]

theorem floorInt_of_beq_zero {x : Float} (h : x == 0) : floorInt x = 0 := by
  rw [floorInt, floorInt?, toRat?_of_beq_zero h]
  rfl

theorem ceilInt_of_beq_zero {x : Float} (h : x == 0) : ceilInt x = 0 := by
  rw [ceilInt, ceilInt?, toRat?_of_beq_zero h]
  rfl

/-! ## Finite doubles -/

theorem isFinite_iff_parts {x : Float} : x.isFinite ↔ (parts x).isFinite := Iff.rfl

/-- A word whose exponent field is not full stands for a finite double. -/
theorem isFinite_ofBits {w : UInt64} (hw : w.toNat / 2 ^ 52 % 2 ^ 11 ≠ 2047) :
    (Float.ofBits w).isFinite := by
  have hexp : @unpackExponent Format.binary64 w.toBitVec ≠ -1#11 := by
    intro h
    have h2 := toNat_unpackExponent w.toBitVec
    rw [h, show (-1#11 : BitVec 11).toNat = 2047 by decide] at h2
    exact hw h2.symm
  have hv : Format.binary64.Valid w.toBitVec := ⟨fun h => absurd h hexp⟩
  have hparts : parts (Float.ofBits w) = unpack Format.binary64 w.toBitVec := by
    show unpack Format.binary64 (UnpackedFloat.pack Format.binary64
      (unpack Format.binary64 w.toBitVec)) = _
    rw [pack_unpack hv]
  rw [isFinite_iff_parts, hparts]
  by_cases hempty : @unpackExponent Format.binary64 w.toBitVec = 0#11
  · by_cases hzero : @unpackMantissa Format.binary64 w.toBitVec = 0#52
    · rw [unpack_of_zero hempty hzero]
      rfl
    · rw [unpack_of_subnormal hempty hzero]
      rfl
  · rw [unpack_of_normal hexp hempty]
    rfl

/-- The double nearest to a ratio is finite. -/
theorem isFinite_of_ofRat? {q : Rat} {x : Float} (h : ofRat? q = some x) : x.isFinite := by
  unfold ofRat? at h
  split at h
  · cases h
    decide
  · simp only [Option.ite_none_left_eq_some, Option.some.injEq, not_le] at h
    obtain ⟨hlt, rfl⟩ := h
    rw [infinityBits_eq] at hlt
    apply isFinite_ofBits
    rw [UInt64.toNat_ofNat']
    split <;> omega

theorem ofRat?_zero : ofRat? 0 = some 0 := by simp [ofRat?]

/-! ## Zeros in arithmetic -/

theorem parts_mul (x y : Float) :
    parts (x * y) = unpack Format.binary64 (UnpackedFloat.pack Format.binary64
      (UnpackedFloat.mul Format.binary64 (parts x) (parts y))) := rfl

theorem parts_div (x y : Float) :
    parts (x / y) = unpack Format.binary64 (UnpackedFloat.pack Format.binary64
      (UnpackedFloat.div Format.binary64 (parts x) (parts y))) := rfl

/-- Sums of doubles are commutative. -/
theorem add_swap (x y : Float) : x + y = y + x := by
  show Float.ofModel (.pack (UnpackedFloat.add Format.binary64 (parts x) (parts y))) =
    Float.ofModel (.pack (UnpackedFloat.add Format.binary64 (parts y) (parts x)))
  congr 2
  rcases parts x with s | _ | s | ⟨s, m, e, hm⟩ <;> rcases parts y with t | _ | t | ⟨t, n, f, hn⟩
  case finite.finite =>
    show UnpackedFloat.normalize _ (_ + _) (min e f) _ =
      UnpackedFloat.normalize _ (_ + _) (min f e) _
    rw [min_comm, add_comm]
  all_goals first | rfl | (cases s <;> cases t <;> rfl)

theorem unpack_pack_zero (s : Sign) :
    unpack Format.binary64 (UnpackedFloat.pack Format.binary64 (.zero s)) = .zero s := by
  cases s <;> rfl

/-- Zeros scale to zeros. -/
theorem beq_zero_mul {x y : Float} (hx : x == 0) (hy : y.isFinite) : x * y == 0 := by
  obtain ⟨s, hs⟩ := beq_zero_iff.mp hx
  rw [beq_zero_iff, parts_mul, hs]
  rw [isFinite_iff_parts] at hy
  rcases hp : parts y with t | _ | t | ⟨t, m, e, hm⟩
  · rw [hp] at hy
    cases hy
  · rw [hp] at hy
    cases hy
  · exact ⟨_, unpack_pack_zero _⟩
  · exact ⟨_, unpack_pack_zero _⟩

/-- Zeros divide to zeros. -/
theorem beq_zero_div {x y : Float} (hx : x == 0) (hy : y.isFinite) (h0 : ¬ y == 0) :
    x / y == 0 := by
  obtain ⟨s, hs⟩ := beq_zero_iff.mp hx
  rw [beq_zero_iff] at h0
  rw [beq_zero_iff, parts_div, hs]
  rw [isFinite_iff_parts] at hy
  rcases hp : parts y with t | _ | t | ⟨t, m, e, hm⟩
  · rw [hp] at hy
    cases hy
  · rw [hp] at hy
    cases hy
  · exact absurd ⟨t, hp⟩ h0
  · exact ⟨_, unpack_pack_zero _⟩

/-- The same double, or two zeros. -/
def Alike (x y : Float) : Prop := x = y ∨ (x == 0 ∧ y == 0)

namespace Alike

@[refl] theorem refl (x : Float) : Alike x x := .inl rfl

@[symm] theorem symm {x y : Float} (h : Alike x y) : Alike y x := by
  rcases h with rfl | ⟨hx, hy⟩
  · exact .inl rfl
  · exact .inr ⟨hy, hx⟩

theorem of_beq_zero {x y : Float} (hx : x == 0) (hy : y == 0) : Alike x y := .inr ⟨hx, hy⟩

theorem beq_zero {x y : Float} (h : Alike x y) (hx : x == 0) : y == 0 := by
  rcases h with rfl | ⟨_, hy⟩
  · exact hx
  · exact hy

theorem beq_zero_iff {x y : Float} (h : Alike x y) : x == 0 ↔ y == 0 := ⟨h.beq_zero, h.symm.beq_zero⟩

theorem trans {x y z : Float} (h : Alike x y) (h' : Alike y z) : Alike x z := by
  rcases h with rfl | ⟨hx, hy⟩
  · exact h'
  · exact .inr ⟨hx, h'.beq_zero hy⟩

/-- A zero in front of a sum makes no difference. -/
theorem zero_add {x : Float} (hx : x == 0) (y : Float) : Alike (x + y) y := by
  by_cases hy : y == 0
  · exact .inr ⟨add_beq_zero hx hy, hy⟩
  · obtain ⟨s, hs⟩ := Double.beq_zero_iff.mp hx
    rw [Double.beq_zero_iff] at hy
    left
    show Float.ofModel (.pack (UnpackedFloat.add Format.binary64 (parts x) (parts y))) = y
    rw [hs]
    conv_rhs => rw [← ofModel_pack_parts y]
    rcases hp : parts y with t | _ | t | ⟨t, m, e, hm⟩
    · rfl
    · rfl
    · exact absurd ⟨t, hp⟩ hy
    · rfl

/-- The sign of a zero in front of a sum makes no difference. -/
theorem add_right {x y : Float} (h : Alike x y) (z : Float) : Alike (x + z) (y + z) := by
  rcases h with rfl | ⟨hx, hy⟩
  · rfl
  · exact (zero_add hx z).trans (zero_add hy z).symm

theorem mul_right {x y : Float} (h : Alike x y) {z : Float} (hz : z.isFinite) :
    Alike (x * z) (y * z) := by
  rcases h with rfl | ⟨hx, hy⟩
  · rfl
  · exact .inr ⟨beq_zero_mul hx hz, beq_zero_mul hy hz⟩

theorem beq_zero_eq {x y : Float} (h : Alike x y) : (x == 0) = (y == 0) :=
  Bool.eq_iff_iff.mpr h.beq_zero_iff

theorem isFinite_eq {x y : Float} (h : Alike x y) : x.isFinite = y.isFinite := by
  rcases h with rfl | ⟨hx, hy⟩
  · rfl
  · rcases eq_or_eq_of_beq_zero hx with rfl | rfl <;>
      rcases eq_or_eq_of_beq_zero hy with rfl | rfl <;> decide

theorem floorInt_eq {x y : Float} (h : Alike x y) : floorInt x = floorInt y := by
  rcases h with rfl | ⟨hx, hy⟩
  · rfl
  · rw [floorInt_of_beq_zero hx, floorInt_of_beq_zero hy]

theorem ceilInt_eq {x y : Float} (h : Alike x y) : ceilInt x = ceilInt y := by
  rcases h with rfl | ⟨hx, hy⟩
  · rfl
  · rw [ceilInt_of_beq_zero hx, ceilInt_of_beq_zero hy]

/-- Quotients by a finite double that is not zero. -/
theorem div {x y z w : Float} (h : Alike x y) (h' : Alike z w) (hz : z.isFinite)
    (h0 : (z == 0) = false) : Alike (x / z) (y / w) := by
  rcases h' with rfl | ⟨hz', -⟩
  · rcases h with rfl | ⟨hx, hy⟩
    · rfl
    · have h0' : ¬ (z == 0) = true := by simp [h0]
      exact .inr ⟨beq_zero_div hx hz h0', beq_zero_div hy hz h0'⟩
  · rw [h0] at hz'
    cases hz'

/-- Doubles that are alike are equal, unless they are no number. -/
theorem beq {x y : Float} (h : Alike x y) (hx : x.isNaN = false) : x == y := by
  rcases h with rfl | ⟨hx, hy⟩
  · have hp : (parts x).isNaN = false := hx
    rw [beq_iff_parts]
    rcases hx : parts x with t | _ | t | ⟨t, m, e, hm⟩
    · cases t <;> rfl
    · rw [hx] at hp
      cases hp
    · rfl
    · have hself : (compare e e).then (compare m m) = .eq := by simp
      cases t with
      | positive =>
        show (some ((compare e e).then (compare m m)) == some .eq) = true
        rw [hself]
        rfl
      | negative =>
        show (some ((compare e e).then (compare m m)).swap == some .eq) = true
        rw [hself]
        rfl
  · exact beq_of_beq_zero hx hy

end Alike

end Intonation.Double
