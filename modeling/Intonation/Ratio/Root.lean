/-!
# Roots and rational powers of ratios

Integer roots are taken by Newton's method from above, which falls until it reaches the root
rounded down. A rational power of a ratio is exact when numerator and denominator both have the
root, and undefined otherwise.

## Main definitions

* `Ratio.floorRoot`: the root of a natural number, rounded down
* `Ratio.integerRoot?`: the exact root of an integer
* `Ratio.power`: the whole power of a ratio
* `Ratio.pow?`: the exact rational power of a ratio
-/

namespace Intonation.Ratio

/-- The number of binary digits of a natural number. -/
def bitLength (n : Nat) : Nat := if n = 0 then 0 else n.log2 + 1

/-- The larger bit length of the two terms of a ratio. -/
def bits (q : Rat) : Nat := max (bitLength q.num.natAbs) (bitLength q.den)

/-- One step of Newton's method towards the `k`-th root of `n`. -/
def newtonStep (n k x : Nat) : Nat := ((k - 1) * x + n / Nat.pow x (k - 1)) / k

/-- Follows Newton's method down from `x` until it stops falling. -/
def descend (n k x : Nat) : Nat :=
  if newtonStep n k x < x then descend n k (newtonStep n k x) else x
  termination_by x

/-- The `k`-th root of `n`, rounded down. -/
def floorRoot (n k : Nat) : Nat := descend n k (1 <<< ((bitLength n + k - 1) / k))

/-- The exact `k`-th root of a natural number. A number with no more than `k` binary digits lies
below every `k`-th power but those of zero and one. -/
def naturalRoot? (n k : Nat) : Option Nat :=
  if n < 2 || k = 1 then some n
  else if bitLength n ≤ k then none
  else
    let root := floorRoot n k
    if Nat.pow root k = n then some root else none

/-- The exact `k`-th root of an integer, which is nonnegative when the integer is. -/
def integerRoot? (n : Int) (k : Nat) : Option Int :=
  if n < 0 then
    if k % 2 = 0 then none else (naturalRoot? n.natAbs k).map fun root => -(root : Int)
  else (naturalRoot? n.natAbs k).map fun root => (root : Int)

/-- The whole power of a ratio; the powers of zero and of units are read off without raising. -/
def power (base : Rat) (exponent : Int) : Rat :=
  if exponent ≠ 0 ∧ (base = 0 ∨ base = 1 ∨ base = -1) then
    if exponent % 2 = 0 then base * base else base
  else base ^ exponent

/-- The exact power of a ratio, or `none` when the power is irrational or undefined. -/
def pow? (base exponent : Rat) : Option Rat :=
  if exponent.den = 1 then
    if base = 0 ∧ exponent < 0 then none else some (power base exponent.num)
  else do
    let num ← integerRoot? base.num exponent.den
    let den ← integerRoot? base.den exponent.den
    if num = 0 ∧ exponent < 0 then none else some (power ((num : Rat) / (den : Rat)) exponent.num)

end Intonation.Ratio
