import Intonation.Fault
import Intonation.Ratio.Decimal

/-!
# Literals

A literal is the written form that a value came from. It never owns the numeric truth; it only
says how the value would be written again. Two placeholders stand for named intervals and
pitches whose spelling waits for a formatting context.

## Main definitions

* `Digits`, `Steps`, `Components`: parts of literals
* `Quality`, `Pythagorean`, `Accidental`, `Pitch`, `Inflection`: names of intervals and pitches
* `Literal`: the written forms
* `Literal.State`, `Literal.domain`: the life cycle and the natural domain of a literal
-/

namespace Intonation

/-! ## Decimals -/

/-- The flavor of a decimal literal. -/
inductive DecimalFlavor
  /-- Written `1.25`. -/
  | plain
  /-- Written `1.25e`. -/
  | exact
  /-- Written `1.25r`, a floating point number. -/
  | real
  /-- Written `440z`, a frequency in hertz. -/
  | frequency
  deriving DecidableEq, Repr

namespace DecimalFlavor

/-- The letter after a decimal. -/
def mark : DecimalFlavor → String
  | plain => ""
  | exact => "e"
  | real => "r"
  | frequency => "z"

/-- Reads the letter after a decimal. -/
def ofMark? : String → Option DecimalFlavor
  | "" => some plain
  | "e" => some exact
  | "r" => some real
  | "z" => some frequency
  | _ => none

@[simp] theorem ofMark?_mark (f : DecimalFlavor) : ofMark? f.mark = some f := by
  cases f <;> rfl

end DecimalFlavor

/-- The digits of a decimal; those after the point are kept as written. -/
structure Digits where
  whole : Nat
  fraction : String := ""
  exponent : Option Int := none
  negative : Bool := false
  deriving DecidableEq, Repr

namespace Digits

/-- Digits with a nonnegative whole part and a fractional part of digits. -/
def make (whole : Int) (fraction : String) (exponent : Option Int) (negative : Bool) :
    Except Fault Digits :=
  if whole < 0 then .error (.signedWhole whole)
  else if fraction.toList.all Text.isDigitLike then
    .ok { whole := whole.toNat, fraction, exponent, negative }
  else .error (.fractionalDigits fraction)

/-- The ratio that digits denote; characters that only look like digits denote none. -/
def toRatio (d : Digits) : Except Fault Rat :=
  match Text.appendDigits? d.whole d.fraction.toList with
  | none => .error .notNumeric
  | some n =>
    let size : Rat := (n : Rat) * (10 : Rat) ^ (d.exponent.getD 0 - d.fraction.toList.length)
    .ok (if d.negative then -size else size)

/-- The digits of an exact decimal. -/
def ofDecimal (d : Ratio.Decimal) : Digits :=
  { whole := d.whole, fraction := d.fraction, negative := d.negative }

end Digits

/-! ## Steps and vectors -/

/-- Steps of an equal division, of the octave unless an equave is written. -/
structure Steps where
  numerator : Int
  denominator : Int
  equaveNumerator : Option Int := none
  equaveDenominator : Option Int := none
  deriving DecidableEq, Repr

namespace Steps

/-- The divided interval, unless it is the octave. -/
def equave? (s : Steps) : Option Rat :=
  s.equaveNumerator.map fun n =>
    match s.equaveDenominator with
    | none | some 0 => n
    | some d => (n : Rat) / d

/-- The fraction of the equave, unless a denominator is zero. -/
def fraction? (s : Steps) : Option Rat :=
  if s.denominator = 0 ∨ s.equaveDenominator = some 0 then none
  else some ((s.numerator : Rat) / s.denominator)

end Steps

/-- The components of a written vector, over the first primes unless a basis is written, with
its ups and lifts. -/
structure Components where
  entries : List Rat
  basis : List Rat := []
  ups : Int := 0
  lifts : Int := 0
  deriving DecidableEq, Repr

/-! ## Names -/

/-- The quality of an interval; `extra` counts the letters after the first. -/
inductive Quality
  | perfect
  | major
  | minor
  | neutral
  | augmented (extra : Nat)
  | diminished (extra : Nat)
  deriving DecidableEq, Repr

namespace Quality

/-- The letters of a quality. -/
def text : Quality → String
  | perfect => "P"
  | major => "M"
  | minor => "m"
  | neutral => "n"
  | augmented extra => String.ofList (List.replicate (extra + 1) 'a')
  | diminished extra => String.ofList (List.replicate (extra + 1) 'd')

/-- Reads the letters of a quality. -/
def ofText? (s : String) : Option Quality :=
  match s.toList with
  | [] => none
  | ['P'] => some perfect
  | ['M'] => some major
  | ['m'] => some minor
  | ['n'] => some neutral
  | 'a' :: rest => if rest.all (· = 'a') then some (augmented rest.length) else none
  | 'd' :: rest => if rest.all (· = 'd') then some (diminished rest.length) else none
  | _ => none

/-- Augmented and diminished intervals of any degree exist. -/
def isAltered : Quality → Bool
  | augmented _ | diminished _ => true
  | _ => false

end Quality

/-- The name of an interval built from fifths and octaves, such as `M3` or `P-5`. -/
structure Pythagorean where
  quality : Quality
  /-- The interval number, negative for descending intervals. -/
  degree : Int
  deriving DecidableEq, Repr

namespace Pythagorean

/-- The degree within the octave, from one to seven. -/
def baseOf (degree : Int) : Nat := (degree.natAbs - 1) % 7 + 1

/-- The degree within the octave, from one to seven. -/
def base (p : Pythagorean) : Nat := baseOf p.degree

/-- The octaves that the degree spans. -/
def octaves (p : Pythagorean) : Nat := (p.degree.natAbs - 1) / 7

/-- Unisons, fourths and fifths are perfect. -/
def isPerfectBase (base : Nat) : Bool := base = 1 || base = 4 || base = 5

/-- The degrees that a quality can stand before. -/
def allows (degree : Int) (q : Quality) : Bool :=
  q.isAltered || isPerfectBase (baseOf degree) == (q = .perfect)

/-- An interval name whose quality fits its degree. -/
def make (quality : String) (degree : Int) : Except Fault Pythagorean :=
  if degree = 0 then .error .zeroDegree
  else match Quality.ofText? quality with
    | none => .error (.invalidQuality quality degree)
    | some q =>
      if allows degree q then .ok ⟨q, degree⟩ else .error (.invalidQuality quality degree)

/-- The name as it is written. -/
def text (p : Pythagorean) : String := p.quality.text ++ toString p.degree

end Pythagorean

/-- The accidentals of note names. -/
inductive Accidental
  | sharp
  | flat
  | doubleSharp
  | semisharp
  | semiflat
  deriving DecidableEq, Repr

namespace Accidental

/-- The sign of an accidental. -/
def mark : Accidental → String
  | sharp => "#"
  | flat => "b"
  | doubleSharp => "x"
  | semisharp => "t"
  | semiflat => "d"

/-- Reads the sign of an accidental. -/
def ofMark? : String → Option Accidental
  | "#" => some sharp
  | "b" => some flat
  | "x" => some doubleSharp
  | "t" => some semisharp
  | "d" => some semiflat
  | _ => none

@[simp] theorem ofMark?_mark (a : Accidental) : ofMark? a.mark = some a := by
  cases a <;> rfl

/-- The apotomes by which an accidental raises a note. -/
def apotomes : Accidental → Rat
  | sharp => 1
  | flat => -1
  | doubleSharp => 2
  | semisharp => 1 / 2
  | semiflat => -1 / 2

end Accidental

/-- The nominals in the order of the circle of fifths. -/
def nominals : List Char := ['F', 'C', 'G', 'D', 'A', 'E', 'B']

/-- A row of characters occurs in another without a gap. -/
def occursIn (row : List Char) : List Char → Bool
  | [] => row.isEmpty
  | c :: cs => row.isPrefixOf (c :: cs) || occursIn row cs

/-- A note name such as `Eb4`. -/
structure Pitch where
  nominal : String
  accidentals : List Accidental := []
  octave : Int := 4
  deriving DecidableEq, Repr

namespace Pitch

/-- The accidentals that a list of signs denotes. -/
def readAccidentals (marks : List String) : Except Fault (List Accidental) :=
  marks.mapM fun mark =>
    match Accidental.ofMark? mark with
    | some a => .ok a
    | none => .error (.unknownAccidental mark)

/-- A note name whose nominal is a row of neighbours on the circle of fifths. -/
def make (nominal : String) (marks : List String) (octave : Int) : Except Fault Pitch :=
  if occursIn nominal.toList nominals then do
    let accidentals ← readAccidentals marks
    .ok { nominal, accidentals, octave }
  else .error (.unknownNominal nominal)

/-- The name as it is written. -/
def text (p : Pitch) : String :=
  p.nominal ++ String.join (p.accidentals.map Accidental.mark) ++ toString p.octave

end Pitch

/-- A comma inflection: the number whose commas it applies, and the comma flavor. -/
structure Inflection where
  number : Int
  flavor : String
  deriving DecidableEq, Repr

namespace Inflection

/-- The comma flavors of named intervals. -/
def flavors : List String := ["", "n"]

/-- The first fault of a row of inflections. -/
def fault? : List Inflection → Option Fault
  | [] => none
  | i :: rest =>
    if !flavors.contains i.flavor then some (.unknownCommaFlavor i.flavor)
    else if i.number < 5 then some (.uninflectable i.number)
    else fault? rest

/-- The inflection as it is written. -/
def text (i : Inflection) : String := toString i.number ++ i.flavor

end Inflection

/-- The inflections of a name: commas above and below it, and its ups and lifts. -/
structure Inflections where
  superscripts : List Inflection := []
  subscripts : List Inflection := []
  ups : Int := 0
  lifts : Int := 0
  deriving DecidableEq, Repr

namespace Inflections

/-- Inflections by numbers that have commas of a known flavor. -/
def make (i : Inflections) : Except Fault Inflections :=
  match Inflection.fault? i.superscripts, Inflection.fault? i.subscripts with
  | some fault, _ => .error fault
  | none, some fault => .error fault
  | none, none => .ok i

end Inflections

/-! ## Literals -/

/-- The written form of a value. -/
inductive Literal
  /-- An integer such as `5`. -/
  | integer (value : Int)
  /-- A fraction such as `6/4`, which is not reduced. -/
  | fraction (numerator denominator : Int)
  /-- A decimal such as `1.25e` or `440z`. -/
  | decimal (digits : Digits) (flavor : DecimalFlavor)
  /-- A size in cents such as `701.955`, or in real cents such as `1.5rc`. -/
  | cents (digits : Digits) (real : Bool)
  /-- The unit cent. -/
  | cent (real : Bool)
  /-- Steps of an equal division such as `7\12`. -/
  | steps (s : Steps)
  /-- A named interval such as `M3^5`. -/
  | interval (name : Pythagorean) (inflections : Inflections)
  /-- A named pitch such as `Eb4_5`, relative to the C4 of a context. -/
  | pitch (name : Pitch) (inflections : Inflections)
  /-- A vector of prime exponents such as `[-2 0 1>`. -/
  | monzo (components : Components)
  /-- A tuning map such as `<12 19 28]`. -/
  | val (components : Components)
  /-- The unit of frequency with its prefix. -/
  | hertz (unitPrefix : String)
  /-- The unit of time with its prefix. -/
  | second (unitPrefix : String)
  /-- A square superparticular such as `S9`, or a product of a range such as `S5..8`. -/
  | superparticular (start : Int) (stop : Option Int)
  /-- A rational power of a ratio such as `2^(1/3)`. -/
  | radical (argument exponent : Rat)
  /-- A named interval that waits to be spelled. -/
  | aspiringInterval (flavor : String)
  /-- A named pitch that waits to be spelled. -/
  | aspiringPitch (flavor : String)
  deriving DecidableEq, Repr

namespace Literal

/-- A square superparticular that starts at two or more and does not end before it starts. -/
def makeSuperparticular (start : Int) (stop : Option Int) : Except Fault Literal :=
  if start < 2 then .error (.superparticularStart start)
  else match stop with
    | none => .ok (superparticular start none)
    | some last =>
      if last < start then .error (.superparticularRange start last)
      else .ok (superparticular start (some last))

/-- Where a literal is in its life cycle. -/
inductive State
  /-- Fully spelled. -/
  | concrete
  /-- Waiting for a context. -/
  | aspiring
  /-- No literal at all. -/
  | unresolved
  deriving DecidableEq, Repr

/-- The word for a state. -/
def State.name : State → String
  | concrete => "concrete"
  | aspiring => "aspiring"
  | unresolved => "unresolved"

/-- Waits for a context to be spelled. -/
def isAspiring : Literal → Bool
  | aspiringInterval _ | aspiringPitch _ => true
  | _ => false

/-- Where an optional literal is in its life cycle. -/
def state : Option Literal → State
  | none => .unresolved
  | some l => if l.isAspiring then .aspiring else .concrete

/-- The domain of the value that a literal denotes. -/
def domain : Literal → Domain
  | integer _ | fraction .. | decimal .. | hertz _ | second _ | radical .. => .linear
  | val _ => .cologarithmic
  | _ => .logarithmic

/-- Two literals of one kind, whatever they spell. -/
def sameKind : Literal → Literal → Bool
  | integer _, integer _ | fraction .., fraction .. | decimal .., decimal ..
  | cents .., cents .. | cent _, cent _ | steps _, steps _ | interval .., interval ..
  | pitch .., pitch .. | monzo _, monzo _ | val _, val _ | hertz _, hertz _
  | second _, second _ | superparticular .., superparticular .. | radical .., radical ..
  | aspiringInterval _, aspiringInterval _ | aspiringPitch _, aspiringPitch _ => true
  | _, _ => false

/-- Named intervals, spelled or waiting. -/
def isRelative : Literal → Bool
  | interval .. | aspiringInterval _ => true
  | _ => false

/-- Named pitches, spelled or waiting. -/
def isAbsolute : Literal → Bool
  | pitch .. | aspiringPitch _ => true
  | _ => false

/-- Decimals of the real flavor, which scale sizes instead of raising to powers. -/
def isRealDecimal : Literal → Bool
  | decimal _ .real => true
  | _ => false

end Literal

end Intonation
