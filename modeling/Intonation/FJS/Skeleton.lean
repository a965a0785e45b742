import Intonation.Literal.Basic
import Intonation.Monzo.Arithmetic

/-!
# Pythagorean names

Interval names and note names stand for vectors of twos and threes. A degree fixes a central
interval, and a quality an offset from it in apotomes; a nominal fixes a note, and accidentals
its offset. Names exist for whole step spans and for offsets of at most a hundred apotomes.

## Main definitions

* `Skeleton`: a vector of twos and threes
* `Pythagorean.skeleton`, `Pythagorean.ofSkeleton?`: interval names and their vectors
* `Pitch.skeleton`, `Pitch.ofSkeleton?`: note names and their vectors relative to C4
-/

namespace Intonation

/-! ## Vectors of twos and threes -/

/-- The exponents of two and three. -/
structure Skeleton where
  twos : Rat
  threes : Rat
  deriving DecidableEq, Repr

namespace Skeleton

/-- A vector moved by octaves and apotomes. -/
def shift (v : Skeleton) (octaves apotomes : Rat) : Skeleton :=
  ⟨v.twos + octaves - 11 * apotomes, v.threes + 7 * apotomes⟩

/-- The reversed vector. -/
def neg (v : Skeleton) : Skeleton := ⟨-v.twos, -v.threes⟩

/-- The number of scale steps that a vector spans. -/
def stepspan (v : Skeleton) : Rat := v.twos * 7 + v.threes * 11

/-- The value of a vector. -/
def toMonzo (s : Settings) (v : Skeleton) : Except Fault Monzo :=
  Monzo.checked s { exps := [v.twos, v.threes] }

/-- The twos and threes of a value. -/
def ofMonzo (m : Monzo) : Except Fault Skeleton := do
  let twos ← m.exponentOf 2
  let threes ← m.exponentOf 3
  .ok ⟨twos, threes⟩

/-- The largest offset from the center that has a name, in apotomes. -/
def maxOffset : Rat := 100

end Skeleton

/-! ## Interval names -/

namespace Quality

/-- The offset of a quality from the center of its degree, in apotomes. -/
def offset (perfectBase : Bool) : Quality → Rat
  | perfect | neutral => 0
  | major => 1 / 2
  | minor => -1 / 2
  | augmented extra => (extra + 1 : Nat) + if perfectBase then 0 else 1 / 2
  | diminished extra => -((extra + 1 : Nat) + if perfectBase then 0 else 1 / 2)

/-- The alteration by a whole number of apotomes, which is not zero. -/
def altered (apotomes : Rat) : Quality :=
  if 0 < apotomes then augmented (apotomes.num.natAbs - 1)
  else diminished (apotomes.num.natAbs - 1)

/-- The quality with an offset from the center of its degree, if there is one. -/
def ofOffset? (perfectBase : Bool) (offset : Rat) : Option Quality :=
  if perfectBase then
    if offset.den ≠ 1 then none
    else if offset = 0 then some perfect
    else some (altered offset)
  else if offset = 0 then some neutral
  else if offset = 1 / 2 then some major
  else if offset = -1 / 2 then some minor
  else
    let beyond := if 0 < offset then offset - 1 / 2 else offset + 1 / 2
    if beyond.den = 1 then some (altered beyond) else none

end Quality

namespace Pythagorean

/-- The central intervals of the degrees from one to seven. -/
def centers : List Skeleton :=
  [⟨0, 0⟩, ⟨5 / 2, -3 / 2⟩, ⟨-1 / 2, 1 / 2⟩, ⟨2, -1⟩, ⟨-1, 1⟩, ⟨3 / 2, -1 / 2⟩, ⟨-3 / 2, 3 / 2⟩]

/-- The central interval of a degree within the octave. -/
def center (base : Nat) : Skeleton := centers.getD (base - 1) ⟨0, 0⟩

/-- The offset of a name from its center, in apotomes. -/
def offset (p : Pythagorean) : Rat := p.quality.offset (isPerfectBase p.base)

/-- The vector of an interval name read upwards. -/
def upwards (p : Pythagorean) : Skeleton := (center p.base).shift p.octaves p.offset

/-- The vector of an interval name, reversed for a negative degree. -/
def skeleton (p : Pythagorean) : Skeleton := if p.degree < 0 then p.upwards.neg else p.upwards

/-- The value of an interval name, which is the reciprocal for a negative degree. -/
def toMonzo (s : Settings) (p : Pythagorean) : Except Fault Monzo := do
  let m ← p.upwards.toMonzo s
  if p.degree < 0 then Monzo.checked s m.reciprocal else .ok m

/-- The name of a vector that spans a nonnegative number of steps. -/
def ofUpwards? (v : Skeleton) (steps : Nat) : Option Pythagorean :=
  let base := steps % 7 + 1
  let offset := (v.threes - (center base).threes) / 7
  if Skeleton.maxOffset < offset.abs then none
  else (Quality.ofOffset? (isPerfectBase base) offset).map fun quality =>
    ⟨quality, base + 7 * (steps / 7 : Nat)⟩

/-- The interval name of a vector, if it has one. -/
def ofSkeleton? (v : Skeleton) : Option Pythagorean :=
  if v.stepspan.den ≠ 1 then none
  else if v.stepspan < 0 then
    (ofUpwards? v.neg v.stepspan.num.natAbs).map fun p => { p with degree := -p.degree }
  else ofUpwards? v v.stepspan.num.natAbs

/-- The interval name of the twos and threes of a value, if it has one. -/
def ofMonzo (m : Monzo) : Except Fault (Option Pythagorean) :=
  (Skeleton.ofMonzo m).map ofSkeleton?

end Pythagorean

/-! ## Note names -/

namespace Pitch

/-- The nominals with their vectors relative to C4, by step span from C. -/
def naturals : List (String × Skeleton) :=
  [("C", ⟨0, 0⟩), ("D", ⟨-3, 2⟩), ("E", ⟨-6, 4⟩), ("F", ⟨2, -1⟩), ("G", ⟨-1, 1⟩), ("A", ⟨-4, 3⟩),
    ("B", ⟨-7, 5⟩)]

/-- The offset of a row of accidentals, in apotomes. -/
def offset (accidentals : List Accidental) : Rat :=
  accidentals.foldr (fun a total => a.apotomes + total) 0

/-- The vector of a note name relative to C4. -/
def skeleton (p : Pitch) : Except Fault Skeleton :=
  match naturals.lookup p.nominal with
  | none => .error .nominalWithoutVector
  | some natural => .ok (natural.shift (p.octave - 4 : Int) (offset p.accidentals))

/-- The value of a note name relative to C4. -/
def toMonzo (s : Settings) (p : Pitch) : Except Fault Monzo := do
  let v ← p.skeleton
  v.toMonzo s

/-- How many times two apotomes have to be taken out of an offset to leave at most two. -/
def doubles (size : Rat) : Nat := ((size - 2) / 2).ceil.toNat

/-- The accidentals of an offset of at most one apotome. -/
def smallAccidentals? (negative : Bool) (size : Rat) : Option (List Accidental) :=
  if size = 0 then some []
  else if size = 1 then some [if negative then .flat else .sharp]
  else if size = 1 / 2 then some [if negative then .semiflat else .semisharp]
  else none

/-- The accidentals of an offset, if it is a multiple of half an apotome. -/
def accidentals? (offset : Rat) : Option (List Accidental) :=
  let negative : Bool := offset < 0
  let pairs := doubles offset.abs
  let rest := offset.abs - 2 * pairs
  let single := if 1 < rest then [if negative then Accidental.flat else Accidental.sharp] else []
  let outer :=
    if negative then List.replicate (2 * pairs) Accidental.flat
    else List.replicate pairs Accidental.doubleSharp
  (smallAccidentals? negative (if 1 < rest then rest - 1 else rest)).map fun inner =>
    inner ++ single ++ outer

/-- The octave of a step span from C4, taken from the nearest double of a seventh of it. -/
def octaveOf (steps : Int) : Except Fault Int := do
  let x ← (Number.ratio (mkRat steps 7)).toDouble
  .ok (Double.floorInt x + 4)

/-- The note name of a vector relative to C4, if it has one. -/
def ofSkeleton (v : Skeleton) : Except Fault (Option Pitch) :=
  if v.stepspan.den ≠ 1 then .ok none
  else do
    let steps := v.stepspan.num
    let octave ← octaveOf steps
    let (nominal, natural) := naturals.getD (steps % 7).toNat ("C", ⟨0, 0⟩)
    let offset := (v.threes - natural.threes) / 7
    if Skeleton.maxOffset < offset.abs then .ok none
    else .ok ((accidentals? offset).map fun accidentals => { nominal, accidentals, octave })

/-- The note name of the twos and threes of a value, if it has one. -/
def ofMonzo (m : Monzo) : Except Fault (Option Pitch) := do
  let v ← Skeleton.ofMonzo m
  ofSkeleton v

end Pitch

end Intonation
