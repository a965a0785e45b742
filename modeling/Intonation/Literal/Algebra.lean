import Intonation.Literal.Basic
import Intonation.Value.Measure

/-!
# Literal algebra

Every operator on values has a counterpart on literals that tries to write the result in the
style of the operands. There is no result when an operand has no literal or when the combination
has no safe spelling; the value is then displayed from its number. A literal that does come out
lowers to the same value as the operation on numbers. Names whose spelling depends on a context
come out as placeholders.

## Main definitions

* `Literal.inferFlavor`: the comma flavor shared by two literals
* `Literal.exactRatio?`, `Literal.centsRatio`: what integers, fractions and cents denote
* `Literal.add`, `Literal.sub`, `Literal.mul`, `Literal.div`, `Literal.neg`, `Literal.invert`,
  `Literal.abs`, `Literal.pow`, `Literal.log`: arithmetic
* `Literal.modulo`, `Literal.reduce`, `Literal.lensAdd`, `Literal.lensSub`, `Literal.roundTo`,
  `Literal.pitchRoundTo`, `Literal.gcd`, `Literal.lcm`, `Literal.project`: measuring
* `Literal.combine`: a counterpart applied to optional literals
-/

namespace Intonation

/-- The same steps with another fraction of the equave. -/
def Steps.withFraction (s : Steps) (numerator denominator : Int) : Steps :=
  { s with numerator, denominator }

namespace Literal

/-! ## Comma flavors -/

/-- The comma flavors that a named literal carries. -/
def commaFlavors : Literal → List String
  | aspiringInterval flavor | aspiringPitch flavor => [flavor]
  | interval _ i | pitch _ i => (i.superscripts ++ i.subscripts).map Inflection.flavor
  | _ => []

/-- The only flavor of a row, or the default one. -/
def soleFlavor : List String → String
  | [] => ""
  | flavor :: rest => if rest.all (· = flavor) then flavor else ""

/-- The comma flavor that the literals at hand share, or the default one. -/
def inferFlavor (literals : List Literal) : String := soleFlavor (literals.flatMap commaFlavors)

/-! ## What literals denote -/

/-- The ratio that an integer or a fraction denotes. -/
def exactRatio? : Literal → Option Rat
  | integer value => some value
  | fraction numerator denominator =>
    if denominator = 0 then none else some ((numerator : Rat) / denominator)
  | _ => none

/-- The numerator and denominator that an integer or a fraction is written with. -/
def terms : Literal → Int × Int
  | integer value => (value, 1)
  | fraction numerator denominator => (numerator, denominator)
  | _ => (0, 1)

/-- The size in cents that a literal of exact cents denotes. -/
def centsRatio : Literal → Except Fault (Option Rat)
  | cents digits false => digits.toRatio.map some
  | _ => .ok none

/-- The decimal of a terminating ratio; real decimals are not exact. -/
def ofDecimal? (q : Rat) (flavor : DecimalFlavor) : Option Literal :=
  if flavor = .real then none
  else (Ratio.decimal? q).map fun d => decimal (Digits.ofDecimal d) flavor

/-- The cents of a terminating ratio, with at least one digit after the point. -/
def ofCents? (q : Rat) : Option Literal :=
  (Ratio.decimal? q).map fun d =>
    cents (Digits.ofDecimal { d with fraction := if d.fraction.isEmpty then "0" else d.fraction })
      false

/-- An integer if possible, otherwise a fraction in lowest terms. -/
def ofRatio (q : Rat) : Literal := if q.den = 1 then integer q.num else fraction q.num q.den

/-! ## Combining parts -/

/-- Steps over a common denominator, combined by their numerators. -/
def combineSteps (op : Int → Int → Int) (a b : Steps) : Option Literal :=
  if a.equave? ≠ b.equave? ∨ a.fraction? = none ∨ b.fraction? = none then none
  else
    let denominator : Int := a.denominator.lcm b.denominator
    let numerator := op (a.numerator * (denominator / a.denominator))
      (b.numerator * (denominator / b.denominator))
    some (steps (a.withFraction numerator denominator))

/-- Entries of two vectors, combined one by one; missing entries count as zero. -/
def zipEntries (op : Rat → Rat → Rat) : List Rat → List Rat → List Rat
  | [], [] => []
  | x :: xs, [] => op x 0 :: zipEntries op xs []
  | [], y :: ys => op 0 y :: zipEntries op [] ys
  | x :: xs, y :: ys => op x y :: zipEntries op xs ys

/-- Vectors over one basis, with `sign` before the second. -/
def combineComponents (sign : Int) (a b : Components) : Option Components :=
  if a.basis ≠ b.basis ∨ (!a.basis.isEmpty ∧ a.entries.length ≠ b.entries.length) then none
  else some { a with
    entries := zipEntries (fun x y => x + sign * y) a.entries b.entries
    ups := a.ups + sign * b.ups
    lifts := a.lifts + sign * b.lifts }

/-- A vector scaled by an integer. -/
def scaleComponents (factor : Int) (c : Components) : Components :=
  { c with
    entries := c.entries.map (· * (factor : Rat))
    ups := c.ups * factor
    lifts := c.lifts * factor }

/-- The literal of a logarithmic value raised to a whole power. -/
def scale (factor : Int) : Literal → Except Fault (Option Literal)
  | cents digits false => do
    let q ← digits.toRatio
    .ok (ofCents? (q * factor))
  | steps s => .ok (some (steps { s with numerator := s.numerator * factor }))
  | monzo c => .ok (some (monzo (scaleComponents factor c)))
  | val c => .ok (some (val (scaleComponents factor c)))
  | l => .ok (if l.isRelative then some (aspiringInterval (inferFlavor [l])) else none)

/-- The literal of decimals combined as ratios. -/
def combineDecimals (op : Rat → Rat → Rat) (d e : Digits) (f g : DecimalFlavor) :
    Except Fault (Option Literal) :=
  if f ≠ g then .ok none
  else do
    let x ← d.toRatio
    let y ← e.toRatio
    .ok (ofDecimal? (op x y) f)

/-- The literal of cents combined as ratios with whatever the second literal is. -/
def combineCents (op : Rat → Rat → Rat) (d : Digits) (b : Literal) :
    Except Fault (Option Literal) := do
  let x ← d.toRatio
  match ← centsRatio b with
  | some y => .ok (ofCents? (op x y))
  | none => .ok none

/-- The fraction of two written fractions, over their common denominator when they have one. -/
def combineFractions (op : Int → Int → Int) (m d n e : Int) : Literal :=
  if d = e then fraction (op m n) d else fraction (op (m * e) (n * d)) (d * e)

/-! ## Arithmetic -/

/-- The literal of a sum. -/
def add : Literal → Literal → Except Fault (Option Literal)
  | integer m, integer n => .ok (some (integer (m + n)))
  | fraction m d, fraction n e => .ok (some (combineFractions (· + ·) m d n e))
  | decimal d f, decimal e g => combineDecimals (· + ·) d e f g
  | cents d false, b => combineCents (· + ·) d b
  | steps a, steps b => .ok (combineSteps (· + ·) a b)
  | monzo a, monzo b => .ok ((combineComponents 1 a b).map monzo)
  | val a, val b => .ok ((combineComponents 1 a b).map val)
  | a, b => .ok <|
    if a.isRelative && b.isRelative then some (aspiringInterval (inferFlavor [a, b]))
    else if a.isAbsolute && b.isRelative || a.isRelative && b.isAbsolute then
      some (aspiringPitch (inferFlavor [a, b]))
    else none

/-- The literal of a difference; the difference of two pitches is an interval. -/
def sub : Literal → Literal → Except Fault (Option Literal)
  | integer m, integer n => .ok (some (integer (m - n)))
  | fraction m d, fraction n e => .ok (some (combineFractions (· - ·) m d n e))
  | decimal d f, decimal e g => combineDecimals (· - ·) d e f g
  | cents d false, b => combineCents (· - ·) d b
  | steps a, steps b => .ok (combineSteps (· - ·) a b)
  | monzo a, monzo b => .ok ((combineComponents (-1) a b).map monzo)
  | val a, val b => .ok ((combineComponents (-1) a b).map val)
  | a, b => .ok <|
    if a.isRelative && b.isRelative || a.isAbsolute && b.isAbsolute then
      some (aspiringInterval (inferFlavor [a, b]))
    else if a.isAbsolute && b.isRelative then some (aspiringPitch (inferFlavor [a, b]))
    else none

/-- The product of two ratios, which keeps the written denominators. -/
def mulExact (a b : Literal) : Literal :=
  match a, b with
  | integer m, integer n => integer (m * n)
  | _, _ => fraction (a.terms.1 * b.terms.1) (a.terms.2 * b.terms.2)

/-- The literal of a product, or of a logarithmic literal scaled by an integer. -/
def mul (a b : Literal) : Except Fault (Option Literal) :=
  if a.exactRatio?.isSome && b.exactRatio?.isSome then .ok (some (mulExact a b))
  else match a, b with
    | integer m, _ => scale m b
    | _, integer n => scale n a
    | _, _ => .ok <|
      if (a.isRelative || b.isRelative) && !(a.isAbsolute || b.isAbsolute) then
        some (aspiringInterval (inferFlavor [a, b]))
      else none

/-- The quotient of two ratios; that of two integers is not reduced. -/
def divExact (a b : Literal) (x y : Rat) : Option Literal :=
  if y = 0 then none
  else match a, b with
    | integer m, integer n => some (if n < 0 then fraction (-m) (-n) else fraction m n)
    | _, _ => some (ofRatio (x / y))

/-- The ratio of steps of one equave. -/
def divSteps (a b : Steps) : Option Literal :=
  if a.equave? ≠ b.equave? then none
  else match a.fraction?, b.fraction? with
    | some x, some y => if y = 0 then none else some (ofRatio (x / y))
    | _, _ => none

/-- The literal of a quotient, of a root of a logarithmic literal, or of a ratio of steps. -/
def div (a b : Literal) : Except Fault (Option Literal) :=
  match a.exactRatio?, b.exactRatio? with
  | some x, some y => .ok (divExact a b x y)
  | _, exactDivisor =>
    match a, b with
    | steps s, steps t => .ok (divSteps s t)
    | cents d false, _ => do
      let x ← d.toRatio
      match ← centsRatio b with
      | some y => .ok (if y = 0 then none else some (ofRatio (x / y)))
      | none => .ok none
    | steps s, integer n => .ok <|
      if n = 0 then none
      else some (steps (s.withFraction (n.sign * s.numerator) (s.denominator * n.natAbs)))
    | _, _ => .ok <|
      if a.isRelative && exactDivisor.isSome then some (aspiringInterval (inferFlavor [a]))
      else none

/-- The literal of a negated or reversed value. -/
def neg : Literal → Option Literal
  | integer n => some (integer (-n))
  | fraction n d => some (fraction (-n) d)
  | decimal d f => some (decimal { d with negative := !d.negative } f)
  | cents d false => some (cents { d with negative := !d.negative } false)
  | steps s => some (steps { s with numerator := -s.numerator })
  | monzo c => some (monzo (scaleComponents (-1) c))
  | val c => some (val (scaleComponents (-1) c))
  | l => if l.isRelative then some (aspiringInterval (inferFlavor [l])) else none

/-- The literal of a reciprocal. -/
def invert : Literal → Option Literal
  | integer n =>
    if n = 0 then none else if n < 0 then some (fraction (-1) (-n)) else some (fraction 1 n)
  | fraction n d =>
    if n = 0 then none else if n < 0 then some (fraction (-d) (-n)) else some (fraction d n)
  | _ => none

/-- Steps upwards of an equave that exceeds one. -/
def absSteps (s : Steps) : Option Literal :=
  if s.fraction? = none then none
  else match s.equave? with
    | some equave =>
      if equave ≤ 1 then none
      else some (steps (s.withFraction s.numerator.natAbs s.denominator.natAbs))
    | none => some (steps (s.withFraction s.numerator.natAbs s.denominator.natAbs))

/-- The literal of a magnitude, or of a distance to unison. -/
def abs : Literal → Option Literal
  | integer n => some (integer n.natAbs)
  | fraction n d => some (fraction n.natAbs d.natAbs)
  | decimal d f => some (decimal { d with negative := false } f)
  | cents d false => some (cents { d with negative := false } false)
  | steps s => absSteps s
  | l => if l.isRelative then some (aspiringInterval (inferFlavor [l])) else none

/-- The literal of a whole power of a ratio, unless it grows too large. -/
def powWhole (s : Settings) (a : Literal) (base : Rat) (exponent : Int) : Option Literal :=
  if s.absurdExponent < Ratio.bits base * exponent.natAbs then none
  else if base = 0 ∧ exponent < 0 then none
  else
    let result := Ratio.power base exponent
    match a with
    | integer _ =>
      if 0 ≤ exponent then some (integer result.num) else some (fraction result.num result.den)
    | _ => some (fraction result.num result.den)

/-- The literal of a linear power. -/
def pow (s : Settings) (a b : Literal) : Option Literal :=
  match a.exactRatio?, b.exactRatio? with
  | some base, some exponent =>
    if exponent.den = 1 then powWhole s a base exponent.num
    else if base ≤ 0 then none
    else some (radical base exponent)
  | _, _ => none

/-- The literal of steps of the octave moved onto a new equave. -/
def project (a base : Literal) : Option Literal :=
  match a, base.exactRatio? with
  | steps s, some equave =>
    if s.equaveNumerator ≠ none ∨ equave ≤ 0 then none
    else some (steps { s with
      equaveNumerator := some equave.num
      equaveDenominator := if equave.den = 1 then none else some (equave.den : Int) })
  | _, _ => none

/-! ## Measuring -/

/-- The ratio that an operation on exact values gives, unless it fails or gives no ratio. -/
def exactResult? (s : Settings) (op : Monzo → Monzo → Except Fault Value) (x y : Rat) :
    Option Rat :=
  let result : Except Fault Rat := do
    let m ← Monzo.ofRatio s x
    let n ← Monzo.ofRatio s y
    let v ← op m n
    v.toRatio
  result.toOption

/-- The literal of an operation on the ratios that two literals denote. -/
def throughValues (s : Settings) (op : Monzo → Monzo → Except Fault Value) (a b : Literal) :
    Option Literal :=
  match a.exactRatio?, b.exactRatio? with
  | some x, some y => (exactResult? s op x y).map ofRatio
  | _, _ => none

/-- The literal of a logarithm, when it is rational. -/
def log (s : Settings) : Literal → Literal → Option Literal := throughValues s (Monzo.log s)

/-- A remainder with the sign of the divisor, which stands for zero under `ceiling`. -/
def intModulo (x y : Int) (ceiling : Bool) : Int :=
  let rest := x.fmod y
  if ceiling ∧ rest = 0 then y else rest

/-- Steps reduced by steps. -/
def moduloSteps (ceiling : Bool) (a b : Steps) : Option Literal :=
  if b.fraction? = some 0 then none
  else combineSteps (fun x y => intModulo x y ceiling) a b

/-- The literal of a remainder, or of an equave reduction of steps. -/
def modulo (s : Settings) (ceiling : Bool) (a b : Literal) : Except Fault (Option Literal) :=
  match a, b with
  | steps m, steps n => .ok (moduloSteps ceiling m n)
  | _, _ => do
    match ← centsRatio a, ← centsRatio b with
    | some x, some y => .ok (if y = 0 then none else ofCents? (Ratio.modulo x y ceiling))
    | _, _ => .ok (throughValues s (fun m n => m.modulo s n ceiling) a b)

/-- The literal of an equave reduced ratio. -/
def reduce (s : Settings) (ceiling : Bool) : Literal → Literal → Option Literal :=
  throughValues s fun m n => m.reduce s n ceiling

/-- The harmonic combination of two sizes, neither of them a unison. -/
def harmonic (op : Rat → Rat → Rat) (x y : Rat) : Option Rat :=
  let total := op x⁻¹ y⁻¹
  if total = 0 then none else some total⁻¹

/-- The literal of a harmonic combination of steps or cents; a unison absorbs the other one. -/
def lensSizes (op : Rat → Rat → Rat) (a b : Literal) : Except Fault (Option Literal) :=
  match a, b with
  | steps m, steps n => .ok <|
    if m.equave? ≠ n.equave? then none
    else match m.fraction?, n.fraction? with
      | some x, some y =>
        if x = 0 then some a
        else if y = 0 then some b
        else (harmonic op x y).map fun q => steps (m.withFraction q.num q.den)
      | _, _ => none
  | _, _ => do
    match ← centsRatio a, ← centsRatio b with
    | some x, some y => .ok <|
      if x = 0 then some a else if y = 0 then some b else (harmonic op x y).bind ofCents?
    | _, _ => .ok none

/-- The literal of a harmonic sum. -/
def lensAdd (s : Settings) (a b : Literal) : Except Fault (Option Literal) :=
  if a.exactRatio?.isSome then
    .ok (throughValues s (fun m n => (Value.exact m).lensAdd s (.exact n)) a b)
  else lensSizes (· + ·) a b

/-- The literal of a harmonic difference. -/
def lensSub (s : Settings) (a b : Literal) : Except Fault (Option Literal) :=
  if a.exactRatio?.isSome then
    .ok (throughValues s (fun m n => (Value.exact m).lensSub s (.exact n)) a b)
  else lensSizes (· - ·) a b

/-- Steps rounded to whole multiples of other steps. -/
def roundSteps (a b : Steps) : Option Literal :=
  if a.equave? ≠ b.equave? then none
  else match a.fraction?, b.fraction? with
    | some x, some y =>
      if y = 0 then none
      else some (steps { b with numerator := Ratio.nearestInteger (x / y) * b.numerator })
    | _, _ => none

/-- The literal of a value rounded to a multiple, or to a number of steps. -/
def roundTo (s : Settings) (a b : Literal) : Except Fault (Option Literal) :=
  match a, b with
  | steps m, steps n => .ok (roundSteps m n)
  | _, _ => do
    match ← centsRatio a, ← centsRatio b with
    | some x, some y =>
      .ok (if y = 0 then none else ofCents? (Ratio.nearestInteger (x / y) * y))
    | _, _ => .ok (throughValues s (Monzo.roundTo s) a b)

/-- The literal of a value rounded to a power of another. -/
def pitchRoundTo (s : Settings) : Literal → Literal → Option Literal :=
  throughValues s (Monzo.pitchRoundTo s)

/-- The literal of a greatest common divisor. -/
def gcd (s : Settings) : Literal → Literal → Option Literal :=
  throughValues s fun m n => (m.gcd s n).map .exact

/-- The literal of a least common multiple. -/
def lcm (s : Settings) : Literal → Literal → Option Literal :=
  throughValues s fun m n => (m.lcm s n).map .exact

/-! ## Optional literals -/

/-- A counterpart that may fail, where a missing operand gives no literal. -/
def combine (op : Literal → Literal → Except Fault (Option Literal)) :
    Option Literal → Option Literal → Except Fault (Option Literal)
  | some a, some b => op a b
  | _, _ => .ok none

/-- A counterpart that cannot fail, where a missing operand gives no literal. -/
def combine? (op : Literal → Literal → Option Literal) :
    Option Literal → Option Literal → Option Literal
  | some a, some b => op a b
  | _, _ => none

end Literal

end Intonation
