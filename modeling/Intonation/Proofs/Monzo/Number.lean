import Intonation.Proofs.Monzo.Rational
import Mathlib.Analysis.SpecialFunctions.Pow.Real

/-!
# The number that a value denotes

A value without correction denotes its residual times the powers of its primes, up to time units.
The number does not depend on how many zeros follow the exponents, and it is the ratio of a
fractional value.

## Main definitions

* `Monzo.realProduct`: the product of primes raised to rational exponents
* `Monzo.number`: the number that a value without correction denotes

## Main statements

* `number_congr`: values with equal exponents and residuals denote one number
* `number_eq_ratio`: the number of a fractional value
-/

namespace Intonation.Monzo
open Intonation.Prime

variable {m n : Monzo}

/-- The product of primes raised to rational exponents. -/
noncomputable def realProduct : List Nat → List ℚ → ℝ
  | p :: primes, e :: es => (p : ℝ) ^ (e : ℝ) * realProduct primes es
  | _, _ => 1

/-- The number that a value without correction denotes, up to time units. -/
noncomputable def number (m : Monzo) : ℝ := m.residual * realProduct table m.exps

theorem realProduct_nil (primes : List Nat) : realProduct primes [] = 1 := by
  cases primes <;> rfl

/-- Only the exponents of the primes at hand count, and zeros do not. -/
theorem realProduct_congr {primes : List Nat} {es fs : List ℚ}
    (h : ∀ k < primes.length, es.getD k 0 = fs.getD k 0) :
    realProduct primes es = realProduct primes fs := by
  have hzeros : ∀ {primes : List Nat} {gs : List ℚ}, (∀ k < primes.length, gs.getD k 0 = 0) →
      realProduct primes gs = 1 := by
    intro primes
    induction primes with
    | nil => exact fun _ => rfl
    | cons p primes ih =>
      intro gs hgs
      rcases gs with - | ⟨g, gs⟩
      · rfl
      · have hg : g = 0 := hgs 0 (Nat.succ_pos _)
        rw [realProduct, hg, Rat.cast_zero, Real.rpow_zero, one_mul]
        exact ih fun k hk => hgs (k + 1) (Nat.succ_lt_succ hk)
  induction primes generalizing es fs with
  | nil => rfl
  | cons p primes ih =>
    rcases es with - | ⟨e, es⟩
    · rw [realProduct_nil, hzeros fun k hk => (h k hk).symm]
    · rcases fs with - | ⟨f, fs⟩
      · rw [realProduct_nil, hzeros h]
      · have hhead : e = f := h 0 (Nat.succ_pos _)
        rw [realProduct, realProduct, hhead, ih fun k hk => h (k + 1) (Nat.succ_lt_succ hk)]

/-- Values with equal exponents and residuals denote one number. -/
theorem number_congr (hexps : ∀ k < tableSize, m.exps.getD k 0 = n.exps.getD k 0)
    (hres : m.residual = n.residual) : m.number = n.number := by
  rw [number, number, hres, realProduct_congr fun k hk => hexps k (length_table ▸ hk)]

/-- Whole exponents multiply to a ratio. -/
theorem realProduct_wholes (primes : List Nat) (ns : List Int) :
    realProduct primes (wholes ns) = (powerProduct primes ns : ℚ) := by
  induction primes generalizing ns with
  | nil => simp [realProduct, powerProduct]
  | cons p primes ih =>
    rcases ns with - | ⟨k, ns⟩
    · simp [realProduct, powerProduct, wholes]
    · show (p : ℝ) ^ (((k : ℚ) : ℚ) : ℝ) * realProduct primes (wholes ns) = _
      rw [ih, powerProduct_cons, Rat.cast_intCast, Real.rpow_intCast]
      push_cast
      rfl

/-- The number of a fractional value is its ratio. -/
theorem number_eq_ratio (h : m.isFractional) : m.number = m.ratio := by
  obtain ⟨-, ns, hns⟩ := isFractional_iff.mp h
  rw [number, hns, realProduct_wholes, ratio_eq_of_exps hns, Rat.cast_mul]

end Intonation.Monzo
