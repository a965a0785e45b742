import Intonation.Interval.Basic

/-!
# Interval arithmetic

The domain of an interval decides what an operator does to its value: sums of linear intervals
add ratios, sums of logarithmic ones multiply them. A product or quotient takes one linear
operand as a scalar. Beside the value, every operator combines the literals and the metadata of
its operands.

## Main definitions

* `Interval.neg`, `Interval.abs`, `Interval.asDomain`, `Interval.broken`
* `Interval.add`, `Interval.sub`, `Interval.lsub`, `Interval.lensAdd`, `Interval.lensSub`
* `Interval.mul`, `Interval.div`, `Interval.ldiv`, `Interval.dot`, `Interval.inverse`
* `Interval.pow`, `Interval.ipow`, `Interval.log`, `Interval.reduce`, `Interval.modulo`
* `Interval.roundTo`, `Interval.pitchRoundTo`, `Interval.gcd`, `Interval.lcm`
* `Interval.backslash`, `Interval.project`
* `Val.neg`, `Val.add`, `Val.sub`, `Val.mul`, `Val.div`, `Val.dot` and their like
-/

namespace Intonation

/-- Fails unless two domains are the same. -/
def requireDomains (operation : String) (a b : Domain) : Except Fault Unit :=
  if a = b then .ok () else .error (.domainsDiffer operation a b)

/-- Fails unless two intervals are linear. -/
def requireLinear (operation : String) (a b : Interval) : Except Fault Unit :=
  if a.domain = .linear ∧ b.domain = .linear then .ok () else .error (.linearOnly operation)

/-- The placeholder of a named interval, or the literal at hand for any other. -/
def Literal.renamed (named l : Option Literal) : Option Literal :=
  match named with
  | some n => if n.isRelative then some (.aspiringInterval (Literal.inferFlavor [n])) else l
  | none => l

/-- The literal at hand, or a respelling of the value when both operands are of one kind. -/
def Literal.orRespelled (v : Value) (a b l : Option Literal) : Option Literal :=
  match l, a, b with
  | some l, _, _ => some l
  | none, some a, some b => if a.sameKind b then Literal.respell v a true else none
  | _, _, _ => none

/-- The harmonic combination of logarithmic values through their geometric inverses; a value
that pairs to zero with itself absorbs the other one. -/
def Value.lens (s : Settings) (op : Value → Value → Except Fault Value) (v w : Value) :
    Except Fault Value := do
  if (← v.dot s v) = 0 then return v
  if (← w.dot s w) = 0 then return w
  let total ← op (← v.geometricInverse s) (← w.geometricInverse s)
  total.geometricInverse s

namespace Interval

/-! ## Unary operations -/

/-- Negates a linear value, or reverses a logarithmic interval. -/
def neg (s : Settings) (i : Interval) : Except Fault Interval := do
  let value ← if i.domain = .linear then i.value.neg s else i.value.inverse s
  return i.derive value (i.literal.bind Literal.neg)

/-- The magnitude, or the distance to unison of a logarithmic interval. -/
def abs (s : Settings) (i : Interval) : Except Fault Interval := do
  let value ← if i.domain = .linear then i.value.abs s else i.value.pitchAbs s
  return i.derive value (i.literal.bind Literal.abs)

/-- The reciprocal of a linear value; a logarithmic interval inverts into the val that maps it
to one step. -/
def inverse (s : Settings) (i : Interval) : Except Fault Quantity := do
  let literal := i.literal.bind Literal.invert
  if i.domain = .linear then
    let value ← i.value.inverse s
    return .interval (i.derive value literal)
  else
    let value ← i.value.geometricInverse s
    let v ← Val.make value i.value literal
    return .val v

/-- The same value in another domain. -/
def asDomain (i : Interval) (d : Domain) : Except Fault Interval :=
  make i.value d i.literal i.metadata

/-- A copy without spelling that depends on a context: named intervals and pitches wait to be
spelled again, and vectors lose their literal. -/
def broken (i : Interval) : Interval :=
  i.derive i.value <| i.literal.bind fun l =>
    match l with
    | .interval .. => some (.aspiringInterval "")
    | .pitch .. => some (.aspiringPitch "")
    | .monzo _ => none
    | l => some l

/-! ## Sums -/

/-- The metadata of a result of two operands. -/
def infected (a b : Interval) : Metadata := a.metadata.infect b.metadata

/-- Adds linear values or composes logarithmic intervals. -/
def add (s : Settings) (a b : Interval) : Except Fault Interval := do
  requireDomains "addition" a.domain b.domain
  let literal ← Literal.combine Literal.add a.literal b.literal
  let value ← if a.domain = .linear then a.value.add s b.value else a.value.mul s b.value
  make value a.domain (Literal.orRespelled value a.literal b.literal literal) (infected a b)

/-- Subtracts linear values or takes the difference of logarithmic intervals. -/
def sub (s : Settings) (a b : Interval) : Except Fault Interval := do
  requireDomains "subtraction" a.domain b.domain
  let literal ← Literal.combine Literal.sub a.literal b.literal
  let value ← if a.domain = .linear then a.value.sub s b.value else a.value.div s b.value
  make value a.domain (Literal.orRespelled value a.literal b.literal literal) (infected a b)

/-- Subtracts the first from the second, with the color and label of the first. -/
def lsub (s : Settings) (a b : Interval) : Except Fault Interval := do
  let result ← sub s b a
  return { result with metadata := result.metadata.favor a.metadata b.metadata }

/-- The harmonic sum. -/
def lensAdd (s : Settings) (a b : Interval) : Except Fault Interval := do
  requireDomains "harmonic addition" a.domain b.domain
  let literal ← Literal.combine (Literal.lensAdd s) a.literal b.literal
  let value ←
    if a.domain = .linear then a.value.lensAdd s b.value
    else Value.lens s (Value.mul s) a.value b.value
  make value a.domain literal (infected a b)

/-- The harmonic difference. -/
def lensSub (s : Settings) (a b : Interval) : Except Fault Interval := do
  requireDomains "harmonic subtraction" a.domain b.domain
  let literal ← Literal.combine (Literal.lensSub s) a.literal b.literal
  let value ←
    if a.domain = .linear then a.value.lensSub s b.value
    else Value.lens s (Value.div s) a.value b.value
  make value a.domain literal (infected a b)

/-! ## Products -/

/-- The size in cents scaled by a real number. -/
def scaledSize (s : Settings) (size : Float) (factor : Value) : Except Fault Value :=
  (Monzo.ofCents s s.numberOfComponents (size * factor.valueOf)).map .exact

/-- A logarithmic interval scaled by a linear scalar: real decimals scale the size in cents, all
other scalars raise to a power. -/
def scaled (s : Settings) (i scalar : Interval) (literal : Option Literal)
    (metadata : Metadata) : Except Fault Interval := do
  let value ←
    if scalar.literal.any Literal.isRealDecimal then
      scaledSize s i.value.totalCents scalar.value
    else i.value.pow s scalar.value
  make value i.domain (Literal.renamed i.literal literal) metadata

/-- Multiplies linear values, or scales a logarithmic interval by a linear scalar. -/
def mul (s : Settings) (a b : Interval) : Except Fault Interval := do
  if a.domain ≠ .linear ∧ b.domain ≠ .linear then throw (.linearRequired "multiplication")
  let literal ← Literal.combine Literal.mul a.literal b.literal
  if b.domain = .logarithmic then scaled s b a literal (infected a b)
  else if a.domain = .logarithmic then scaled s a b literal (infected a b)
  else
    let value ← a.value.mul s b.value
    make value a.domain literal (infected a b)

/-- Divides linear values, takes a root of a logarithmic interval, or measures one logarithmic
interval in units of another. -/
def div (s : Settings) (a b : Interval) : Except Fault Interval := do
  let literal ← Literal.combine Literal.div a.literal b.literal
  if b.domain = .logarithmic then
    requireDomains "non-scalar division" a.domain b.domain
    let value ← a.value.log s b.value
    make value .linear literal (infected a b)
  else if a.domain = .logarithmic then
    let value ← a.value.pow s (← b.value.inverse s)
    make value a.domain (Literal.renamed a.literal literal) (infected a b)
  else
    let value ← a.value.div s b.value
    make value a.domain literal (infected a b)

/-- Divides the second by the first, with the color and label of the first. -/
def ldiv (s : Settings) (a b : Interval) : Except Fault Interval := do
  let result ← div s b a
  return { result with metadata := result.metadata.favor a.metadata b.metadata }

/-- A number of steps. -/
def ofSteps (s : Settings) (steps : Rat) (metadata : Metadata) : Except Fault Interval := do
  let m ← Monzo.ofRatio s steps
  return linear (.exact m) (some (Literal.ofRatio steps)) metadata

/-- Pairs the prime exponents of two intervals. -/
def dot (s : Settings) (a b : Interval) : Except Fault Interval := do
  let steps ← a.value.dot s b.value
  ofSteps s steps (infected a b)

/-- A map that counts each up of an interval as one more step. -/
def countingUps (s : Settings) : Value → Except Fault Value
  | .exact m => (Monzo.checked s { m with cents := m.cents + 1 }).map .exact
  | .real a => .ok (.real a)

/-- Maps an interval to steps. -/
def dotVal (s : Settings) (i : Interval) (v : Val) : Except Fault Interval := do
  let map ← countingUps s v.value
  let steps ← i.value.dot s map
  ofSteps s steps i.metadata

/-! ## Powers -/

/-- Fails unless a power of linear quantities has a scalar exponent. -/
def requirePower (a b : Interval) : Except Fault Unit :=
  if a.domain ≠ .linear ∨ b.domain ≠ .linear then .error .linearPower
  else if b.value.isScalar then .ok ()
  else .error .nonScalarPower

/-- Raises a linear value to a scalar power. -/
def pow (s : Settings) (a b : Interval) : Except Fault Interval := do
  requirePower a b
  let value ← a.value.pow s b.value
  make value a.domain (Literal.combine? (Literal.pow s) a.literal b.literal) (infected a b)

/-- Takes a root of a linear value. -/
def ipow (s : Settings) (a b : Interval) : Except Fault Interval := do
  requirePower a b
  let literal := Literal.combine? (Literal.pow s) a.literal (b.literal.bind Literal.invert)
  let value ← a.value.pow s (← b.value.inverse s)
  make value a.domain literal (infected a b)

/-- The logarithm of a linear value in the base of another. -/
def log (s : Settings) (a b : Interval) : Except Fault Interval := do
  requireLinear "Logarithm" a b
  let value ← a.value.log s b.value
  make value a.domain (Literal.combine? (Literal.log s) a.literal b.literal) (infected a b)

/-! ## Remainders and rounding -/

/-- Divides a linear value by an equave until it lies between unison and the equave. -/
def reduce (s : Settings) (a b : Interval) (ceiling : Bool) : Except Fault Interval := do
  requireLinear "Reduction" a b
  let value ← a.value.reduce s b.value ceiling
  make value a.domain (Literal.combine? (Literal.reduce s ceiling) a.literal b.literal)
    (infected a b)

/-- The remainder of linear values, or the equave reduction of logarithmic intervals. -/
def modulo (s : Settings) (a b : Interval) (ceiling : Bool) : Except Fault Interval := do
  requireDomains "modulo" a.domain b.domain
  let literal ← Literal.combine (Literal.modulo s ceiling) a.literal b.literal
  let value ←
    if a.domain = .linear then a.value.modulo s b.value ceiling
    else a.value.reduce s b.value ceiling
  make value a.domain literal (infected a b)

/-- Rounds a linear value to a multiple, or a logarithmic interval to whole steps. -/
def roundTo (s : Settings) (a b : Interval) : Except Fault Interval := do
  requireDomains "rounding" a.domain b.domain
  let literal ← Literal.combine (Literal.roundTo s) a.literal b.literal
  let value ←
    if a.domain = .linear then a.value.roundTo s b.value else a.value.pitchRoundTo s b.value
  make value a.domain literal (infected a b)

/-- Rounds a linear value to the nearest power of a scalar. -/
def pitchRoundTo (s : Settings) (a b : Interval) : Except Fault Interval := do
  requireLinear "Exponential rounding" a b
  if !b.value.isScalar then throw .scalarRounding
  let value ← a.value.pitchRoundTo s b.value
  make value a.domain (Literal.combine? (Literal.pitchRoundTo s) a.literal b.literal)
    (infected a b)

/-- The greatest common divisor of linear values. -/
def gcd (s : Settings) (a b : Interval) : Except Fault Interval := do
  requireLinear "Gcd" a b
  let value ← a.value.gcd s b.value
  make value a.domain (Literal.combine? (Literal.gcd s) a.literal b.literal) (infected a b)

/-- The least common multiple of linear values. -/
def lcm (s : Settings) (a b : Interval) : Except Fault Interval := do
  requireLinear "Lcm" a b
  let value ← a.value.lcm s b.value
  make value a.domain (Literal.combine? (Literal.lcm s) a.literal b.literal) (infected a b)

/-! ## Crossing domains -/

/-- The literal of steps of an equal division, when both terms are integers. -/
def divisionLiteral? : Value → Value → Option Literal
  | .exact m, .exact n =>
    if m.isIntegral && n.isIntegral then
      some (.steps { numerator := m.ratio.num, denominator := n.ratio.num })
    else none
  | _, _ => none

/-- Steps of an equal division of the octave. -/
def backslash (s : Settings) (a b : Interval) : Except Fault Interval := do
  if !a.value.isScalar || !b.value.isScalar then throw .scalarBackslash
  requireLinear "Backslashing" a b
  let octave ← Monzo.ofRatio s 2
  let value ← octave.pow s (← a.value.div s b.value)
  make value .logarithmic (divisionLiteral? a.value b.value) (infected a b)

/-- Moves steps of the octave onto another equave. -/
def project (s : Settings) (a base : Interval) : Except Fault Interval := do
  let value ← a.value.project s base.value
  make value .logarithmic (Literal.combine? Literal.project a.literal base.literal)
    (infected a base)

end Interval

/-! ## Vals -/

namespace Val

/-- Fails unless two vals are measured against the same equave. -/
def requireEquave (s : Settings) (operation : String) (v w : Val) : Except Fault Unit := do
  if ← v.equave.strictEquals s w.equave then return ()
  else throw (.equavesDiffer operation)

/-- Fails unless an interval is a linear scalar. -/
def requireScalar (i : Interval) : Except Fault Unit :=
  if i.domain = .linear ∧ i.value.isScalar then .ok () else .error .valScalar

/-- The reversed map. -/
def neg (s : Settings) (v : Val) : Except Fault Val := do
  let value ← v.value.inverse s
  make value v.equave (v.literal.bind Literal.neg)

/-- The logarithmic interval that a val maps to one step. -/
def inverse (s : Settings) (v : Val) : Except Fault Interval := do
  let value ← v.value.geometricInverse s
  return .logarithmic value none {}

/-- The map or its reverse, whichever is at least unison. -/
def abs (s : Settings) (v : Val) : Except Fault Val := do
  let value ← v.value.pitchAbs s
  make value v.equave none

/-- The sum of maps over the same equave. -/
def add (s : Settings) (v w : Val) : Except Fault Val := do
  requireEquave s "addition" v w
  let value ← v.value.mul s w.value
  let literal ← Literal.combine Literal.add v.literal w.literal
  make value v.equave literal

/-- The difference of maps over the same equave. -/
def sub (s : Settings) (v w : Val) : Except Fault Val := do
  requireEquave s "subtraction" v w
  let value ← v.value.div s w.value
  let literal ← Literal.combine Literal.sub v.literal w.literal
  make value v.equave literal

/-- The unit in which real decimals scale the size of a map. -/
def sizeUnit : Float := 1 / 1440000

/-- A map scaled by a linear scalar: real decimals scale its size in cents, all other scalars
raise it to a power. -/
def mul (s : Settings) (v : Val) (scalar : Interval) : Except Fault Val := do
  requireScalar scalar
  if scalar.literal.any Literal.isRealDecimal then
    let value ← Interval.scaledSize s (v.value.totalCents * sizeUnit) scalar.value
    make value v.equave none
  else
    let value ← v.value.pow s scalar.value
    let literal ← Literal.combine Literal.mul v.literal scalar.literal
    make value v.equave literal

/-- A map scaled by the reciprocal of a linear scalar. -/
def div (s : Settings) (v : Val) (scalar : Interval) : Except Fault Val := do
  requireScalar scalar
  let value ← v.value.pow s (← scalar.value.inverse s)
  make value v.equave none

/-- Pairs two vals. -/
def dot (s : Settings) (v w : Val) : Except Fault Interval := do
  let steps ← v.value.dot s w.value
  Interval.ofSteps s steps {}

/-- A copy without its literal. -/
def broken (v : Val) : Val := { v with literal := none }

end Val

end Intonation
