import Intonation.Literal.Algebra

/-!
# Values as literals

A value can be spelled as a given kind of literal when that kind can hold it exactly. A
reference literal decides the kind and, unless the spelling is to be simple, the details.

## Main definitions

* `Literal.asInteger`, `Literal.asFraction`, `Literal.asDecimal`, `Literal.asSteps`,
  `Literal.asCents`, `Literal.asMonzo`, `Literal.asRadical`: a value as a literal of one kind
* `Literal.respell`: a value as a literal of the kind of a reference
-/

namespace Intonation.Literal

/-- A scalar integer as a literal. -/
def asInteger : Value → Option Literal
  | .exact m => if m.isScalar && m.isIntegral then some (integer m.ratio.num) else none
  | .real _ => none

/-- The factor by which a fraction is expanded to look like a written one. -/
def expansion (numerator denominator : Int) (q : Rat) : Nat :=
  let shared := numerator.gcd denominator
  if shared = 1 ∧ denominator.natAbs % q.den = 0 then denominator.natAbs / q.den else shared

/-- A scalar ratio as a fraction that keeps the common factor of a written one. -/
def asFraction (v : Value) (reference : Option (Int × Int)) : Option Literal :=
  match v with
  | .exact m =>
    if m.isScalar && m.isFractional then
      let q := m.ratio
      match reference with
      | some (numerator, denominator) =>
        if denominator = 0 then some (fraction q.num q.den)
        else
          let factor := expansion numerator denominator q
          some (fraction (q.num * factor) (q.den * factor))
      | none => some (fraction q.num q.den)
    else none
  | .real _ => none

/-- The power of the time unit that decimals of a flavor have. -/
def flavorTime (flavor : DecimalFlavor) : Rat := if flavor = .frequency then -1 else 0

/-- A terminating decimal as a literal of a flavor. -/
def asDecimal (v : Value) (flavor : DecimalFlavor) : Option Literal :=
  match v with
  | .exact m =>
    if m.isDecimal && m.time = flavorTime flavor then ofDecimal? m.ratio flavor else none
  | .real _ => none

/-- A fraction of an equave as steps of the octave. -/
def plainSteps (fraction equave : Rat) : Option Literal :=
  if equave = 1 ∨ equave = 2 then
    some (steps { numerator := fraction.num, denominator := fraction.den })
  else none

/-- A fraction of an equave as steps in the division of written ones, if that is fine enough. -/
def stepsLike (reference : Steps) (fraction equave : Rat) : Option Literal :=
  let written := match reference.equave? with
    | some e => if e = 0 then 2 else e
    | none => 2
  if equave ≠ 1 ∧ equave ≠ written then none
  else if reference.denominator ≠ 0 ∧ reference.denominator.natAbs % fraction.den = 0 then
    some (steps { reference with
      numerator := fraction.num * (reference.denominator / fraction.den) })
  else some (steps (reference.withFraction fraction.num fraction.den))

/-- A rational power of a ratio as steps of an equal division. -/
def asSteps (v : Value) (reference : Option Steps) : Option Literal :=
  match v with
  | .exact m =>
    if m.isEqualTemperament then
      let (part, equave) := Monzo.temperament m.exps
      match reference with
      | none => plainSteps part equave
      | some written => stepsLike written part equave
    else none
  | .real _ => none

/-- A power of two as a size in cents. -/
def asCents : Value → Option Literal
  | .exact m => if m.isPowerOfTwo then ofCents? (m.firstExponent * 1200) else none
  | .real _ => none

/-- A rational power of a ratio as a vector. -/
def asMonzo : Value → Option Literal
  | .exact m =>
    if m.isEqualTemperament then some (monzo { entries := Monzo.trimZeros m.exps }) else none
  | .real _ => none

/-- A rational power of a ratio as a radical. -/
def asRadical : Value → Option Literal
  | .exact m =>
    if m.isEqualTemperament then
      let (part, equave) := Monzo.temperament m.exps
      some (radical equave part)
    else none
  | .real _ => none

/-- A value as a literal of the kind of a reference; names come out as placeholders. -/
def respell (v : Value) (reference : Literal) (simplify : Bool) : Option Literal :=
  match reference with
  | integer _ => asInteger v
  | fraction numerator denominator =>
    asFraction v (if simplify then none else some (numerator, denominator))
  | decimal _ flavor => asDecimal v flavor
  | steps s => asSteps v (if simplify && s.equave?.isNone then none else some s)
  | cents _ false => asCents v
  | monzo c => if c.basis.isEmpty then asMonzo v else none
  | radical .. => asRadical v
  | l =>
    if l.isRelative then some (aspiringInterval (inferFlavor [l]))
    else if l.isAbsolute then some (aspiringPitch (inferFlavor [l]))
    else none

/-- A value as a literal of the kind of an optional reference. -/
def respell? (v : Value) (reference : Option Literal) (simplify : Bool) : Option Literal :=
  reference.bind fun l => respell v l simplify

end Intonation.Literal
