import Intonation.Ratio.Root

/-!
# Sizes in octaves

The size of a ratio in octaves is its binary logarithm. It is taken digit by digit: the tenth
power of a number between one and two has the next decimal digit as the whole part of its size,
and dividing by that many octaves leaves a number between one and two again.

## Main definitions

* `Ratio.octaveDigits`: decimal digits of a size
* `Ratio.octaves`: the size of a ratio in octaves, to eighteen decimal places
-/

namespace Intonation.Ratio

/-- The binary places of the fixed-point numbers in which digits are taken. -/
def fixedPlaces : Nat := 160

/-- The product of two fixed-point numbers. -/
def fixedMul (x y : Nat) : Nat := (x * y) >>> fixedPlaces

/-- The tenth power of a fixed-point number. -/
def fixedTenth (x : Nat) : Nat :=
  let square := fixedMul x x
  let fourth := fixedMul square square
  fixedMul (fixedMul fourth fourth) square

/-- Appends decimal digits of the size of a fixed-point number between one and two. -/
def octaveDigits : Nat → Nat → Nat → Nat
  | 0, _, digits => digits
  | count + 1, x, digits =>
    let power := fixedTenth x
    let digit := power.log2 - fixedPlaces
    octaveDigits count (power >>> digit) (10 * digits + digit)

/-- The size in octaves of a ratio from one up, rounded up to eighteen decimal places. -/
def octaves (q : Rat) : Rat :=
  let whole := q.floor.toNat.log2
  let rest := (q.num.natAbs <<< fixedPlaces / q.den) >>> whole
  mkRat (octaveDigits 18 rest whole + 1) 1000000000000000000

end Intonation.Ratio
