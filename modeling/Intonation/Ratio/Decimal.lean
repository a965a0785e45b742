import Intonation.Fault
import Intonation.Prime.Factor

/-!
# Terminating decimals

A ratio has a terminating decimal expansion when two and five are the only primes of its
denominator. It is then written exactly, with as few places as possible.

## Main definitions

* `Ratio.isDecimal`: a ratio with a terminating decimal expansion
* `Ratio.decimal?`: its sign, whole part and fractional digits
* `Ratio.decimalText?`, `Ratio.decimalText`: its exact decimal text
-/

namespace Intonation.Ratio

/-- The denominator without its factors of two and five. -/
def repetend (q : Rat) : Nat := (Prime.strip 5 (Prime.strip 2 q.den).1).1

/-- A ratio with a terminating decimal expansion. -/
def isDecimal (q : Rat) : Bool := repetend q = 1

/-- The least number of decimal places that show a terminating ratio. -/
def places (q : Rat) : Nat := max (Prime.strip 2 q.den).2 (Prime.strip 5 q.den).2

/-- An exact decimal: its sign, the whole part and the digits after the point. -/
structure Decimal where
  negative : Bool
  whole : Nat
  fraction : String
  deriving DecidableEq, Repr

/-- A number written with at least `width` digits, filled with zeros in front. -/
def padded (width n : Nat) : String :=
  let digits := toString n
  String.ofList (List.replicate (width - digits.length) '0') ++ digits

/-- The exact decimal of a terminating ratio. -/
def decimal? (q : Rat) : Option Decimal :=
  if isDecimal q then
    let unit := Nat.pow 10 (places q)
    let scaled := q.num.natAbs * unit / q.den
    some {
      negative := q < 0
      whole := scaled / unit
      fraction := if places q = 0 then "" else padded (places q) (scaled % unit) }
  else none

/-- The text of a decimal, without a point when no digits follow it. -/
def Decimal.text (d : Decimal) : String :=
  (if d.negative then "-" else "") ++ toString d.whole ++
    if d.fraction.isEmpty then "" else "." ++ d.fraction

/-- The exact decimal text of a terminating ratio. -/
def decimalText? (q : Rat) : Option String := (decimal? q).map Decimal.text

/-- The exact decimal text of a ratio, which has to terminate. -/
def decimalText (q : Rat) : Except Fault String :=
  match decimalText? q with
  | some t => .ok t
  | none => .error (.endlessDecimal q)

end Intonation.Ratio
