import Intonation.FJS.Inflection
import Intonation.Fields.Context
import Intonation.Interval.Basic
import Intonation.Literal.Text

/-!
# Lowering literals

Every concrete literal lowers to one interval or val that keeps the literal for display. Invalid
components are malformed literals, and so are literals that exceed the bounds and placeholders,
which only ever come out of arithmetic.

## Main definitions

* `metricPrefixes`, `binaryPrefixes`: the prefixes of units
* `Literal.exactValue`, `Literal.lowerValue`: the values of literals of intervals
* `Literal.lowerWith`: the quantity of a literal in a context
* `Literal.lower`: the same, where values beyond the bounds are malformed literals
-/

namespace Intonation

/-- The powers of ten of metric prefixes. -/
def metricPrefixes : List (String × Int) :=
  [("Q", 30), ("R", 27), ("Y", 24), ("Z", 21), ("E", 18), ("P", 15), ("T", 12), ("G", 9), ("M", 6),
    ("k", 3), ("h", 2), ("da", 1), ("", 0), ("d", -1), ("c", -2), ("m", -3), ("µ", -6), ("u", -6),
    ("n", -9), ("p", -12), ("f", -15), ("a", -18), ("z", -21), ("y", -24), ("r", -27), ("q", -30)]

/-- The powers of 1024 of binary prefixes. -/
def binaryPrefixes : List (String × Int) :=
  [("Ki", 1), ("Mi", 2), ("Gi", 3), ("Ti", 4), ("Pi", 5), ("Ei", 6), ("Zi", 7), ("Yi", 8),
    ("Ri", 9), ("Qi", 10)]

/-- The scale of a unit with a prefix. -/
def unitScale (unitPrefix : String) : Except Fault Rat :=
  match metricPrefixes.lookup unitPrefix, binaryPrefixes.lookup unitPrefix with
  | some e, _ => .ok ((10 : Rat) ^ e)
  | none, some e => .ok ((1024 : Rat) ^ e)
  | none, none => .error (.unknownPrefix unitPrefix)

/-- A value moved by ups and lifts of a context. -/
def withArrows (s : Settings) (c : Context) (ups lifts : Int) (v : Value) :
    Except Fault Value := do
  let raised ← if ups = 0 then pure v else move v (c.upValue s) ups
  if lifts = 0 then return raised else move raised (c.liftValue s) lifts
where
  /-- A value moved by a number of inflections. -/
  move (v : Value) (size : Except Fault Monzo) (count : Int) : Except Fault Value := do
    let inflection ← size
    v.mul s (← inflection.powRatio s count)

/-- A vector of exponents over at least as many primes as the settings track. -/
def vectorOf (s : Settings) (entries : List Rat) : Except Fault Monzo :=
  Monzo.checked s
    { exps := entries ++ List.replicate (s.numberOfComponents - entries.length) 0 }

namespace Literal

/-- The literal as it appears in a message. -/
def written (l : Literal) : String := l.text.toOption.getD ""

/-- The value of a decimal of a flavor. -/
def lowerDecimal (s : Settings) (digits : Digits) (flavor : DecimalFlavor) :
    Except Fault Value := do
  let q ← digits.toRatio
  match flavor with
  | .real => return .real { value := ← (Number.ratio q).toDouble }
  | .frequency => (Monzo.ofFrequency s q).map .exact
  | .plain | .exact => (Monzo.ofRatio s q).map .exact

/-- The value of a size in cents. -/
def lowerCents (s : Settings) (digits : Digits) (real : Bool) : Except Fault Monzo := do
  let q ← digits.toRatio
  if real then Monzo.ofCents s s.numberOfComponents (← (Number.ratio q).toDouble)
  else Monzo.ofTemperament s s.numberOfComponents (q / 1200) 2

/-- The value of steps of an equal division. -/
def lowerSteps (s : Settings) (l : Literal) (steps : Steps) : Except Fault Monzo :=
  match steps.fraction? with
  | none => .error (.zeroDenominator l.written)
  | some q =>
    let equave := steps.equave?.getD 2
    if equave ≤ 0 then .error (.invalidEquave l.written)
    else Monzo.ofTemperament s s.numberOfComponents q equave

/-- The value of a vector, over the first primes or over a basis of positive ratios. -/
def lowerVector (s : Settings) (l : Literal) (c : Components) : Except Fault Value :=
  if c.basis.isEmpty then (vectorOf s c.entries).map .exact
  else if c.basis.length < c.entries.length then
    .error (.tooManyComponents c.entries.length c.basis.length)
  else if c.basis.any (· ≤ 0) then .error (.invalidEquave l.written)
  else Value.ofSubgroup s s.numberOfComponents c.entries c.basis

/-- The position in the table of the prime that a basis element is. -/
def valPosition (element : Rat) : Except Fault Nat :=
  match (if element.den = 1 then Prime.index? element.num else none) with
  | some index => .ok index
  | none => .error (.compositeValBasis element)

/-- Entries put in their positions, the last one counting, with zeros between them. -/
def placeEntries (positions : List Nat) (entries : List Rat) : List Rat :=
  (positions.zip entries).foldl (fun row (i, e) => row.set i e)
    (List.replicate (positions.foldl max 0 + 1) 0)

/-- The components of a map over all primes, and its equave. -/
def valComponents (c : Components) : Except Fault (List Rat × Rat) := do
  match c.basis with
  | [] => return (c.entries, 2)
  | first :: _ =>
    if c.entries.length ≠ c.basis.length then
      throw (.componentMismatch c.entries.length c.basis.length)
    let positions ← c.basis.mapM valPosition
    return (placeEntries positions c.entries, first)

/-- The val of a tuning map. -/
def lowerVal (s : Settings) (context : Context) (l : Literal) (c : Components) :
    Except Fault Val := do
  let (entries, equaveRatio) ← valComponents c
  let equave ← Monzo.ofRatio s equaveRatio
  let vector ← vectorOf s entries
  let value ← withArrows s context c.ups c.lifts (.exact vector)
  Val.make value (.exact equave) (some l)

/-- The ratio of a square superparticular, or of the product of a range of them. -/
def superparticularRatio (start : Int) : Option Int → Rat
  | none => ((start * start : Int) : Rat) / (start * start - 1 : Int)
  | some stop => ((start * stop : Int) : Rat) / ((start - 1) * (stop + 1) : Int)

/-- The value of a fraction. -/
def lowerFraction (s : Settings) (l : Literal) (n d : Int) : Except Fault Monzo :=
  if d = 0 then .error (.zeroDenominator l.written) else Monzo.ofRatio s ((n : Rat) / d)

/-- The value of the unit of frequency with a prefix. -/
def lowerHertz (s : Settings) (unitPrefix : String) : Except Fault Monzo := do
  let scale ← unitScale unitPrefix
  Monzo.ofFrequency s scale

/-- The value of the unit of time with a prefix. -/
def lowerSecond (s : Settings) (unitPrefix : String) : Except Fault Monzo := do
  let scale ← unitScale unitPrefix
  let m ← Monzo.ofRatio s scale
  Monzo.checked s { m with time := 1 }

/-- The value of a radical. -/
def lowerRadical (s : Settings) (l : Literal) (argument exponent : Rat) : Except Fault Monzo :=
  if argument ≤ 0 then .error (.invalidEquave l.written)
  else Monzo.ofTemperament s s.numberOfComponents exponent argument

/-- The value of the unit cent. -/
def lowerCent (s : Settings) (real : Bool) : Except Fault Monzo :=
  if real then Monzo.ofCents s s.numberOfComponents 1
  else Monzo.ofTemperament s s.numberOfComponents (1 / 1200) 2

/-- The value of a named interval. -/
def lowerInterval (s : Settings) (context : Context) (name : Pythagorean) (i : Inflections) :
    Memoized Value := do
  let base ← Memoized.ofExcept (name.toMonzo s)
  let v ← inflect s (.exact base) i.superscripts i.subscripts
  Memoized.ofExcept (withArrows s context i.ups i.lifts v)

/-- The value of a named pitch. -/
def lowerPitch (s : Settings) (context : Context) (name : Pitch) (i : Inflections) :
    Memoized Value := do
  let base ← Memoized.ofExcept (name.toMonzo s)
  let v ← inflect s (.exact base) i.superscripts i.subscripts
  let absolute ← Memoized.ofExcept (context.c4.mul s v)
  Memoized.ofExcept (withArrows s context i.ups i.lifts absolute)

/-- The value of a vector with its arrows. -/
def lowerMonzo (s : Settings) (context : Context) (l : Literal) (c : Components) :
    Except Fault Value := do
  let v ← lowerVector s l c
  withArrows s context c.ups c.lifts v

/-- The value of a literal that denotes one by itself. -/
def exactValue (s : Settings) (l : Literal) : Except Fault Monzo :=
  match l with
  | integer n => Monzo.ofRatio s n
  | fraction n d => lowerFraction s l n d
  | hertz unitPrefix => lowerHertz s unitPrefix
  | second unitPrefix => lowerSecond s unitPrefix
  | radical argument exponent => lowerRadical s l argument exponent
  | cents digits real => lowerCents s digits real
  | cent real => lowerCent s real
  | steps written => lowerSteps s l written
  | superparticular start stop => Monzo.ofRatio s (superparticularRatio start stop)
  | _ => .error .aspiringLiteral

/-- The value of the literal of an interval in a context. -/
def lowerValue (s : Settings) (context : Context) (l : Literal) : Memoized Value :=
  match l with
  | decimal digits flavor => Memoized.ofExcept (lowerDecimal s digits flavor)
  | interval name i => lowerInterval s context name i
  | pitch name i => lowerPitch s context name i
  | monzo c => Memoized.ofExcept (lowerMonzo s context l c)
  | l => Memoized.ofExcept ((exactValue s l).map .exact)

/-- The quantity of a literal in a context. -/
def lowerWith (s : Settings) (context : Context) (l : Literal) : Memoized Quantity :=
  match l with
  | val c => Memoized.ofExcept ((lowerVal s context l c).map .val)
  | l => do
    let value ← lowerValue s context l
    return .interval { value, domain := l.domain, literal := some l }

/-- The fault of a literal whose lowering fails: values beyond the bounds are malformed. -/
def loweringFault (fault : Fault) : Fault :=
  if fault.family = .overflow then .literalOutOfRange else fault

/-- The quantity of a literal; without a context, inflections have their default sizes and C4 is
unity. -/
def lower (s : Settings) (context : Option Context) (l : Literal) : Memoized Quantity := do
  let context ← match context with
    | some c => pure c
    | none => Memoized.ofExcept (Context.default s)
  tryCatch (lowerWith s context l) fun fault => throw (loweringFault fault)

/-- The ups and lifts that a literal is written with. -/
def arrowsOf : Literal → Int × Int
  | interval _ i | pitch _ i => (i.ups, i.lifts)
  | monzo c | val c => (c.ups, c.lifts)
  | _ => (0, 0)

/-- A literal written with ups or lifts, whose value depends on a context. -/
def isFragile (l : Literal) : Bool := l.arrowsOf ≠ (0, 0)

end Literal

end Intonation
