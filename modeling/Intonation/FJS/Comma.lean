import Intonation.Literal.Basic
import Intonation.Monzo.Arithmetic
import Intonation.Value.Arithmetic

/-!
# Commas of primes

Every prime from five up has a comma that moves an interval of twos and threes onto the nearest
interval that contains the prime. The formal comma looks for the first fifth, going outwards on
the circle of fifths, that lies within a radius of tolerance; the neutral comma has a larger
radius and also tries half fifths.

Commas are memoized: the value found first is found again, whatever settings are in force later.

## Main definitions

* `Comma.circleDistance`: the distance of two pitches on a circle
* `Comma.formalMaster?`, `Comma.neutralMaster?`: the fifth nearest to a prime
* `Comma.compute`: the comma of a prime
* `CommaMemo`, `Memoized`, `comma`: commas found so far, and looking one up
-/

namespace Intonation

namespace Comma

/-! ## The circle of fifths -/

/-- The distance of two pitches on a circle whose circumference is not zero. -/
def circleDistance (a b circumference : Float) : Float :=
  (Double.modulo (a - b + circumference / 2) circumference - circumference / 2).abs

/-- The distance of two pitches on a circle of any circumference. -/
def distanceOn (a b circumference : Float) : Except Fault Float :=
  if circumference == 0 then .error .zeroDivisor else .ok (circleDistance a b circumference)

/-- The distance of two pitches up to octaves. -/
def octaveDistance (a b : Float) : Float := circleDistance a b 1200

/-- The radius of tolerance of formal commas. -/
def formalRadius : Float := 1200 * Double.nearest (Ratio.octaves (65 / 63))

/-- The radius of tolerance of neutral commas. -/
def neutralRadius : Float := 13.5 * Prime.octaveCents - 8.5 * Prime.tritaveCents

/-- The size of the fifth in cents. -/
def fifthCents : Float := Prime.tritaveCents - Prime.octaveCents

/-- More fifths than are needed to come near any prime of the table. -/
def searchLength : Nat := 64

/-- Goes outwards by fifths from a pitch until it or its reflection lies within the radius. -/
def searchFifths (size radius : Float) : Nat → Nat → Float → Option Int
  | 0, _, _ => none
  | fuel + 1, k, pitch =>
    let pitch := pitch + fifthCents
    if octaveDistance size pitch < radius then some (k + 1 : Nat)
    else if octaveDistance size (-pitch) < radius then some (-(k + 1 : Nat))
    else searchFifths size radius fuel (k + 1) pitch

/-- The number of fifths nearest to a prime of the given size. -/
def formalMaster? (size : Float) : Option Rat :=
  if octaveDistance size 0 < formalRadius then some 0
  else (searchFifths size formalRadius searchLength 0 0).map fun (k : Int) => (k : Rat)

/-- Goes outwards by fifths from half a fifth; the numbers found count half fifths. -/
def searchHalfFifths (size : Float) : Nat → Nat → Float → Option Rat
  | 0, _, _ => none
  | fuel + 1, k, pitch =>
    if octaveDistance size pitch < neutralRadius then some (mkRat (2 * k + 1) 2)
    else if octaveDistance size (-pitch) < neutralRadius then some (-mkRat (2 * k + 1) 2)
    else searchHalfFifths size fuel (k + 1) (pitch + fifthCents)

/-- The number of fifths or half fifths nearest to a prime of the given size. -/
def neutralMaster? (size : Float) : Option Rat :=
  if octaveDistance size 0 < neutralRadius then some 0
  else match searchFifths size neutralRadius 6 0 0 with
    | some k => some k
    | none => searchHalfFifths size 6 0 (0.5 * fifthCents)

/-- The number of fifths that leads to a prime, by the convention of a comma flavor. -/
def master? (flavor : String) (size : Float) : Option Rat :=
  if flavor = "n" then neutralMaster? size else formalMaster? size

/-! ## The comma of a prime -/

/-- More octaves than lie between any comma and its smallest form. -/
def foldLength : Nat := 64

/-- Takes octaves out of a comma while it exceeds half an octave upwards. -/
def foldDown : Nat → Float → Rat → Float × Rat
  | 0, cents, twos => (cents, twos)
  | fuel + 1, cents, twos =>
    if 600 < cents then foldDown fuel (cents - Prime.octaveCents) (twos - 1) else (cents, twos)

/-- Adds octaves to a comma while it exceeds half an octave downwards. -/
def foldUp : Nat → Float → Rat → Float × Rat
  | 0, cents, twos => (cents, twos)
  | fuel + 1, cents, twos =>
    if cents < -600 then foldUp fuel (cents + Prime.octaveCents) (twos + 1) else (cents, twos)

/-- The exponent of two in a comma with the given exponent of three. -/
def twosFor (size : Float) (threes : Rat) : Rat :=
  let x := Double.nearest threes
  let cents := size + x * Prime.octaveCents + x * Prime.tritaveCents
  let folded := foldDown foldLength cents threes
  (foldUp foldLength folded.1 folded.2).2

/-- The comma of the prime at a position of the table. -/
def ofIndex (s : Settings) (index : Nat) (prime : Nat) (flavor : String) : Except Fault Monzo :=
  match master? flavor (Prime.cents prime) with
  | none => .error .noRegion
  | some fifths => do
    let fifthPart ← Monzo.checked s { exps := [twosFor (Prime.cents prime) (-fifths), -fifths] }
    let primePart ← Monzo.ofRatioOver s (index + 1) prime
    fifthPart.mul s primePart

/-- The comma of a prime of the table; two and three have none. -/
def compute (s : Settings) (prime : Int) (flavor : String) : Except Fault Monzo :=
  match Prime.index? prime with
  | none => .error .notInTable
  | some index =>
    if index < 2 then Monzo.unity s 2 else ofIndex s index prime.toNat flavor

end Comma

/-! ## Memoized commas -/

/-- What a comma is filed under: the prime, and the flavor if one was named. -/
structure CommaKey where
  prime : Int
  flavor : Option String
  deriving DecidableEq, Repr

/-- The commas found so far. -/
abbrev CommaMemo := List (CommaKey × Monzo)

/-- A computation that may look up commas, and that keeps those it finds even when it fails. -/
abbrev Memoized := ExceptT Fault (StateM CommaMemo)

/-- A computation that needs no commas. -/
def Memoized.ofExcept {α : Type} (result : Except Fault α) : Memoized α :=
  ExceptT.mk (pure result)

/-- The comma filed under a key, found anew only once. -/
def comma (s : Settings) (key : CommaKey) : Memoized Monzo := do
  let memo ← get
  match memo.lookup key with
  | some m => return m
  | none =>
    let m ← Memoized.ofExcept (Comma.compute s key.prime (key.flavor.getD ""))
    modify fun memo => (key, m) :: memo
    return m

end Intonation
