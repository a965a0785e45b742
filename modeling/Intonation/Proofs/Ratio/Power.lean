import Intonation.Ratio.Root
import Mathlib.Tactic

/-!
# Exact powers of ratios

Reading the powers of zero and of units off changes nothing: a whole power is the power. One is
its own power whatever the exponent.

## Main statements

* `power_eq_zpow`: whole powers
* `pow?_intCast`, `pow?_one`: exact powers with whole exponents and of one
-/

namespace Intonation.Ratio

theorem power_eq_zpow (base : ℚ) (exponent : Int) : power base exponent = base ^ exponent := by
  unfold power
  split
  · next h =>
    obtain ⟨h0, hbase⟩ := h
    split
    · next heven =>
      obtain ⟨k, hk⟩ : Even exponent := Int.even_iff.mpr heven
      rcases hbase with rfl | rfl | rfl
      · rw [zero_zpow exponent h0, mul_zero]
      · rw [one_zpow, mul_one]
      · rw [hk, ← two_mul, zpow_mul]
        norm_num
    · next hodd =>
      rcases hbase with rfl | rfl | rfl
      · rw [zero_zpow exponent h0]
      · rw [one_zpow]
      · have h1 : Odd exponent := Int.not_even_iff_odd.mp fun he => hodd (Int.even_iff.mp he)
        rw [h1.neg_one_zpow]
  · rfl

theorem pow?_intCast (base : ℚ) (k : Int) :
    pow? base k = if base = 0 ∧ k < 0 then none else some (base ^ k) := by
  unfold pow?
  rw [if_pos (Rat.den_intCast k), Rat.num_intCast, power_eq_zpow]
  simp

theorem pow?_one (exponent : ℚ) : pow? 1 exponent = some 1 := by
  unfold pow?
  split
  · simp [power_eq_zpow]
  · simp [integerRoot?, naturalRoot?, power_eq_zpow]

end Intonation.Ratio
