import Intonation.Double.Basic
import Intonation.Ratio.Text

/-!
# Doubles as text

A double is written with the fewest decimal digits that read back as the same double. Decimal
exponents from -4 to 15 are written positionally, always with a point, and all others with an
exponent of at least two digits.

## Main definitions

* `Double.shortest`: the fewest decimal digits that read back
* `Double.text`: a double in full
* `Double.display`: a double without a superfluous point, with words for what is no number
* `Double.ofDecimal`: the double nearest to a row of digits times a power of ten
* `Double.ofText?`: the double nearest to a decimal text
-/

namespace Intonation.Double

/-- A decimal `coefficient * 10 ^ exponent`. -/
structure Scientific where
  coefficient : Nat
  exponent : Int
  deriving DecidableEq, Repr

/-- The positive ratios that round to a given double: those between `low` and `high`, with the
ends when the mantissa is even. -/
structure RoundingInterval where
  low : Rat
  high : Rat
  closed : Bool

/-- The ratios that round to a positive finite double. -/
def roundingInterval (f : Finite) : RoundingInterval :=
  let unit : Rat := (2 : Rat) ^ f.exponent
  let value : Rat := (f.mantissa : Rat) * unit
  let below : Rat := if f.mantissa = 1 <<< 52 ∧ -1074 < f.exponent then unit / 4 else unit / 2
  ⟨value - below, value + unit / 2, f.mantissa % 2 = 0⟩

/-- A ratio rounds to the double of the interval. -/
def RoundingInterval.contains (r : RoundingInterval) (q : Rat) : Bool :=
  if r.closed then r.low ≤ q && q ≤ r.high else r.low < q && q < r.high

/-- Raises a decimal exponent until the next power of ten exceeds the value. -/
def raiseExponent (value : Rat) : Nat → Int → Int
  | 0, e => e
  | fuel + 1, e => if (10 : Rat) ^ (e + 1) ≤ value then raiseExponent value fuel (e + 1) else e

/-- The exponent of the largest power of ten not exceeding a positive ratio. -/
def decimalExponent (value : Rat) : Int :=
  let binary : Int := (value.num.natAbs.log2 : Int) - value.den.log2
  raiseExponent value 4 ((binary - 1) * 30103 / 100000 - 1)

/-- The point of the decimal grid with `count` digits that reads back, if there is one: of two
such neighbours the nearer, of two equally near ones the even. -/
def gridPoint? (r : RoundingInterval) (value : Rat) (top : Int) (count : Nat) :
    Option Scientific :=
  let step : Int := top - (count - 1 : Nat)
  let scaled := value / (10 : Rat) ^ step
  let below := scaled.floor.toNat
  let rest := scaled - (below : Rat)
  let readsBack (n : Nat) : Bool := r.contains ((n : Rat) * (10 : Rat) ^ step)
  let lowerFirst : Bool := rest < 1 / 2 || (rest = 1 / 2 && below % 2 = 0)
  let candidates := if lowerFirst then [below, below + 1] else [below + 1, below]
  (candidates.find? readsBack).map fun n => ⟨n, step⟩

/-- Moves the zeros at the end of a coefficient into the exponent. -/
def Scientific.normalize (s : Scientific) : Nat → Scientific
  | 0 => s
  | fuel + 1 =>
    if s.coefficient ≠ 0 ∧ s.coefficient % 10 = 0 then
      Scientific.normalize ⟨s.coefficient / 10, s.exponent + 1⟩ fuel
    else s

/-- The fewest decimal digits that read back as a positive finite double. -/
def shortest (f : Finite) : Scientific :=
  let interval := roundingInterval f
  let value : Rat := (f.mantissa : Rat) * (2 : Rat) ^ f.exponent
  let top := decimalExponent value
  let found := (List.range' 1 17).findSome? (gridPoint? interval value top)
  (found.getD ⟨0, 0⟩).normalize 20

/-- The text of zeros. -/
def zeros (count : Nat) : List Char := List.replicate count '0'

/-- An exponent with its sign and at least two digits. -/
def exponentText (e : Int) : List Char :=
  let digits := (toString e.natAbs).toList
  (if e < 0 then '-' else '+') :: (zeros (2 - digits.length) ++ digits)

/-- Digits with a point after the first `whole` of them; missing digits are zeros. -/
def pointed (digits : List Char) (whole : Int) : List Char :=
  if whole ≤ 0 then '0' :: '.' :: (zeros whole.natAbs ++ digits)
  else
    let front := digits.take whole.toNat
    let back := digits.drop whole.toNat
    front ++ zeros (whole.toNat - digits.length) ++ '.' :: (if back.isEmpty then ['0'] else back)

/-- A positive decimal, positional for leading exponents from -4 to 15. -/
def Scientific.text (s : Scientific) : List Char :=
  let digits := (toString s.coefficient).toList
  let leading : Int := s.exponent + digits.length - 1
  if -4 ≤ leading ∧ leading < 16 then pointed digits (leading + 1)
  else
    let front := digits.take 1
    let back := digits.drop 1
    front ++ (if back.isEmpty then [] else '.' :: back) ++ 'e' :: exponentText leading

/-- A double with the fewest digits that read back. -/
def text (x : Float) : String :=
  match finite? x with
  | none => if x.isNaN then "nan" else if x < 0 then "-inf" else "inf"
  | some f =>
    let digits := if f.mantissa = 0 then ['0', '.', '0'] else (shortest f).text
    String.ofList (if f.negative then '-' :: digits else digits)

/-- Whole doubles from here on are displayed like all others. -/
def displayLimit : Rat := 10000000000000000

/-- A double for display: whole numbers below 10^16 without a point, and words for infinities
and for what is no number. -/
def display (x : Float) : String :=
  match toRat? x with
  | none => if x.isNaN then "NaN" else if 0 < x then "Infinity" else "-Infinity"
  | some q => if q.den = 1 ∧ q.abs < displayLimit then toString q.num else text x

/-- The double nearest to a row of digits times a power of ten. What lies far beyond all doubles
is settled by the place of its first digit. -/
def ofDecimal (digits : Nat) (exponent : Int) : Float :=
  let places : Int := exponent + (toString digits).length
  if digits = 0 ∨ places < -400 then 0
  else if 400 < places then infinity
  else nearest ((digits : Rat) * (10 : Rat) ^ exponent)

/-- The double nearest to a number that a text denotes, or one of the words for infinity and
for what is no number. -/
def ofText? (s : String) : Option Float :=
  let signed := Ratio.takeSign (Text.trim s.toList)
  let word := String.ofList (signed.2.map Char.toLower)
  let size? : Option Float :=
    if word = "inf" ∨ word = "infinity" then some infinity
    else if word = "nan" then some notANumber
    else match Ratio.Written.read? signed.2 with
      | some (.decimal digits exponent) => some (ofDecimal digits exponent)
      | _ => none
  size?.map fun size => if signed.1 then -size else size

end Intonation.Double
