/-!
# Doubles as ratios

Every finite double is a ratio, namely a mantissa times a power of two. This module reads that
ratio off exactly, rounds a ratio to the nearest double, and builds on the two what needs exact
arithmetic: whole parts, remainders and comparisons with bounds of any size.

## Main definitions

* `Double.Finite`, `Double.finite?`: the mantissa and exponent of a finite double
* `Double.toRat?`: the exact ratio of a finite double
* `Double.ofRat?`: the double nearest to a ratio, unless the ratio is too large
* `Double.nearest`: the same, saturating to infinity
* `Double.floorInt?`: the largest integer not exceeding a finite double
* `Double.modulo`: the remainder that has the sign of the divisor
-/

namespace Intonation.Double

/-- A finite double as `mantissa * 2 ^ exponent` with a sign of its own. -/
structure Finite where
  negative : Bool
  mantissa : Nat
  exponent : Int
  deriving DecidableEq, Repr

/-- The mantissa and exponent of a finite double. -/
def finite? (x : Float) : Option Finite :=
  let bits := x.toBits.toNat
  let negative : Bool := 1 <<< 63 ≤ bits
  let field : Nat := bits >>> 52 % 1 <<< 11
  let fraction : Nat := bits % 1 <<< 52
  if field = 2047 then none
  else if field = 0 then some ⟨negative, fraction, -1074⟩
  else some ⟨negative, 1 <<< 52 + fraction, (field : Int) - 1075⟩

/-- The exact ratio that a mantissa and exponent stand for. -/
def Finite.toRat (f : Finite) : Rat :=
  let size : Rat := (f.mantissa : Rat) * (2 : Rat) ^ f.exponent
  if f.negative then -size else size

/-- The exact ratio of a finite double. -/
def toRat? (x : Float) : Option Rat := (finite? x).map Finite.toRat

/-- A quotient rounded to the nearest integer, a half going to the even one. -/
def roundDiv (n d : Nat) : Nat :=
  let quotient := n / d
  let twice := 2 * (n % d)
  if twice < d then quotient
  else if d < twice then quotient + 1
  else quotient + quotient % 2

/-- The exponent at which a positive quotient has a mantissa of fifty-three bits, but no less
than the exponent of the smallest double. -/
def quotientExponent (n d : Nat) : Int :=
  let e : Int := (n.log2 : Int) - d.log2
  let reaches := if 0 ≤ e then d <<< e.toNat ≤ n else d ≤ n <<< (-e).toNat
  max ((if reaches then e else e - 1) - 52) (-1074)

/-- The bits of the double nearest to a positive quotient; too large a quotient gives bits at
or beyond those of infinity. -/
def quotientBits (n d : Nat) : Nat :=
  let q := quotientExponent n d
  let mantissa := if 0 ≤ q then roundDiv n (d <<< q.toNat) else roundDiv (n <<< (-q).toNat) d
  (q + 1074).toNat <<< 52 + mantissa

/-- The bits of positive infinity. -/
def infinityBits : Nat := 2047 <<< 52

/-- Positive infinity. -/
def infinity : Float := Float.ofBits (UInt64.ofNat infinityBits)

/-- The double that is no number. -/
def notANumber : Float := Float.ofBits (UInt64.ofNat (infinityBits + 1 <<< 51))

/-- The double nearest to a ratio, a half going to the even mantissa, or `none` when the ratio
is too large. A tiny negative ratio gives negative zero. -/
def ofRat? (q : Rat) : Option Float :=
  if q = 0 then some 0
  else
    let bits := quotientBits q.num.natAbs q.den
    if infinityBits ≤ bits then none
    else some (Float.ofBits (UInt64.ofNat (if q < 0 then 1 <<< 63 + bits else bits)))

/-- The double nearest to a ratio, saturating to infinity. -/
def nearest (q : Rat) : Float := (ofRat? q).getD (if q < 0 then -infinity else infinity)

/-- The sign bit of a double. -/
def isNegative (x : Float) : Bool := 1 <<< 63 ≤ x.toBits.toNat

/-- The zero that has the sign of a double. -/
def zeroLike (x : Float) : Float := if isNegative x then -0.0 else 0.0

/-- The infinity that has the sign of a double. -/
def infinityLike (x : Float) : Float := if isNegative x then -infinity else infinity

/-- A double is larger than a ratio, compared exactly. -/
def exceeds (x : Float) (bound : Rat) : Bool :=
  match toRat? x with
  | some q => bound < q
  | none => 0 < x

/-- The largest integer not exceeding a finite double. -/
def floorInt? (x : Float) : Option Int := (toRat? x).map Rat.floor

/-- The least integer not below a finite double. -/
def ceilInt? (x : Float) : Option Int := (toRat? x).map Rat.ceil

/-- The largest integer not exceeding a double, where what is not finite counts as zero. -/
def floorInt (x : Float) : Int := (floorInt? x).getD 0

/-- The least integer not below a double, where what is not finite counts as zero. -/
def ceilInt (x : Float) : Int := (ceilInt? x).getD 0

/-- A finite double without a fractional part. -/
def isWhole (x : Float) : Bool :=
  match toRat? x with
  | some q => q.den = 1
  | none => false

/-- The ratio left after taking the divisor out of the dividend towards zero. -/
def truncatedRemainder (x y : Rat) : Rat :=
  let quotient := x / y
  x - y * (if 0 ≤ quotient then quotient.floor else quotient.ceil : Int)

/-- The remainder with the sign of the dividend, which is exact. -/
def remainder (x y : Float) : Float :=
  match toRat? x, toRat? y with
  | some p, some q =>
    if q = 0 then notANumber
    else
      let rest := truncatedRemainder p q
      if rest = 0 then zeroLike x else (ofRat? rest).getD notANumber
  | some _, none => if y.isNaN then notANumber else x
  | none, _ => notANumber

/-- The remainder with the sign of the divisor; a zero remainder has that sign too. -/
def modulo (x y : Float) : Float :=
  let rest := remainder x y
  if rest == 0 then zeroLike y
  else if (y < 0) != (rest < 0) then rest + y
  else rest

end Intonation.Double
