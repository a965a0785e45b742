import Intonation.Literal.Algebra
import Mathlib.Tactic

/-!
# Remainders of ratios

A remainder takes a whole number of divisors out of a ratio. It scales with the ratio and the
divisor, and on integers it is the remainder of integers.

## Main statements

* `modulo_eq`: the remainder in terms of whole periods
* `modulo_mul`: remainders scale
* `intModulo_eq`: remainders of integers
-/

namespace Intonation.Ratio

theorem floor_eq_iff {q : ℚ} {n : Int} : q.floor = n ↔ (n : ℚ) ≤ q ∧ q < n + 1 := by
  constructor
  · rintro rfl
    exact ⟨Rat.floor_le q, by simpa using Rat.lt_floor_add_one q⟩
  · rintro ⟨hle, hlt⟩
    refine le_antisymm ?_ (Rat.le_floor_iff.mpr hle)
    have hlt' : q.floor < n + 1 := Rat.floor_lt_iff.mpr (by push_cast; exact hlt)
    omega

theorem ceil_eq_floor_add {q : ℚ} :
    q.ceil = if q = q.floor then q.floor else q.floor + 1 := by
  split
  · next h => rw [h, Rat.ceil_intCast, Rat.floor_intCast]
  · next h =>
    have hlt : (q.floor : ℚ) < q := lt_of_le_of_ne (Rat.floor_le q) (Ne.symm h)
    refine le_antisymm ?_ ?_
    · rw [Rat.ceil_le_iff]
      exact (Rat.lt_floor_add_one q).le
    · have := Rat.lt_ceil_iff.mpr hlt
      omega

/-- What whole periods leave of a ratio is the remainder. -/
theorem modulo_eq (x : ℚ) {y : ℚ} (hy : y ≠ 0) (ceiling : Bool) :
    modulo x y ceiling = x - y * wholePeriods (x / y) ceiling := by
  unfold modulo wholePeriods floorMod
  have hzero : x - y * ((x / y).floor : ℚ) = 0 ↔ x / y = (x / y).floor := by
    rw [sub_eq_zero, eq_comm (a := x), div_eq_iff hy, mul_comm y, eq_comm]
  cases ceiling with
  | false => simp
  | true =>
    simp only [true_and, if_true, ceil_eq_floor_add, hzero]
    split
    · next h =>
      have h' : x - y * ((x / y).floor : ℚ) = 0 := hzero.mpr h
      push_cast
      linear_combination -h'
    · push_cast
      ring

/-- Remainders scale. -/
theorem modulo_mul {x y z : ℚ} (hz : z ≠ 0) (ceiling : Bool) :
    modulo (x * z) (y * z) ceiling = modulo x y ceiling * z := by
  have hfloor : floorMod (x * z) (y * z) = floorMod x y * z := by
    unfold floorMod
    rw [mul_div_mul_right _ _ hz]
    ring
  unfold modulo
  simp only [hfloor, mul_eq_zero, hz, or_false]
  split <;> rfl

theorem floor_div_of_pos (x : Int) {y : Int} (hy : 0 < y) : ((x : ℚ) / y).floor = x.fdiv y := by
  have hmod : (x : ℚ) = y * x.fdiv y + x.fmod y := by
    exact_mod_cast (Int.mul_fdiv_add_fmod x y).symm
  have hy' : (0 : ℚ) < y := by exact_mod_cast hy
  have h1 : (0 : ℚ) ≤ x.fmod y := by exact_mod_cast Int.fmod_nonneg_of_pos x hy
  have h2 : (x.fmod y : ℚ) < y := by exact_mod_cast Int.fmod_lt_of_pos x hy
  rw [floor_eq_iff, le_div_iff₀ hy', div_lt_iff₀ hy']
  constructor <;> linarith

theorem floor_div_intCast (x : Int) {y : Int} (hy : y ≠ 0) :
    ((x : ℚ) / y).floor = x.fdiv y := by
  rcases lt_or_gt_of_ne hy with hneg | hpos
  · have h := floor_div_of_pos (-x) (neg_pos.mpr hneg)
    push_cast at h
    rwa [neg_div_neg_eq, Int.neg_fdiv_neg] at h
  · exact floor_div_of_pos x hpos

/-- The remainder of integers is that of ratios. -/
theorem intModulo_eq (x : Int) {y : Int} (hy : y ≠ 0) (ceiling : Bool) :
    ((Literal.intModulo x y ceiling : Int) : ℚ) = modulo x y ceiling := by
  have hrest : floorMod (x : ℚ) y = (x.fmod y : Int) := by
    unfold floorMod
    rw [floor_div_intCast x hy, Int.fmod_def]
    push_cast
    rfl
  unfold Literal.intModulo modulo
  simp only [hrest, Int.cast_eq_zero]
  split <;> rfl

/-- Harmonic combinations scale. -/
theorem harmonic_mul {op : ℚ → ℚ → ℚ} (hop : ∀ x y z, op (x * z) (y * z) = op x y * z)
    {x y z : ℚ} (hz : z ≠ 0) :
    Literal.harmonic op (x * z) (y * z) = (Literal.harmonic op x y).map (· * z) := by
  unfold Literal.harmonic
  simp only [mul_inv, hop, mul_eq_zero, inv_eq_zero, hz, or_false]
  split
  · rfl
  · rw [inv_inv, Option.map_some]

end Intonation.Ratio
