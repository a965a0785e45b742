import Intonation.Approx.Arithmetic
import Intonation.Monzo.Basis
import Intonation.Monzo.Text

/-!
# Values

A value is exact or real. Mixed operations fall back to real arithmetic, so that everything
above this level works with values of either kind.

## Main definitions

* `Value`: an exact or a real value
* `Monzo.toApprox`, `Value.toApprox`: the real value nearest to a value
* `Value.ofNumber`: plain numbers as values
-/

namespace Intonation

/-- The real value nearest to an exact value. -/
def Monzo.toApprox (m : Monzo) : Approx := ⟨m.time, m.valueOf⟩

/-- An exact or a real value. -/
inductive Value
  | exact (m : Monzo)
  | real (a : Approx)

/-- A plain number. -/
inductive Number
  | integer (n : Int)
  | ratio (q : Rat)
  | double (x : Float)

namespace Number

/-- The exact ratio of a number, unless it is infinite or no number. -/
def toRat : Number → Except Fault Rat
  | integer n => .ok n
  | ratio q => .ok q
  | double x =>
    match Double.toRat? x with
    | some q => .ok q
    | none => .error (if x.isNaN then .notANumber else .infinite)

/-- The double nearest to a number, unless it is too large. -/
def toDouble : Number → Except Fault Float
  | integer n => ofRat n
  | ratio q => ofRat q
  | double x => .ok x
where
  /-- The double nearest to a ratio. -/
  ofRat (q : Rat) : Except Fault Float :=
    match Double.ofRat? q with
    | some x => .ok x
    | none => .error .tooLarge

end Number

/-- The real value nearest to a number, unless it is too large. -/
def Number.toReal (n : Number) : Except Fault Value :=
  n.toDouble.map fun x => .real { value := x }

namespace Value

/-- An exact value. -/
def isExact : Value → Bool
  | exact _ => true
  | real _ => false

/-- The power of the time unit. -/
def time : Value → Rat
  | exact m => m.time
  | real a => a.time

/-- A value without time units. -/
def isScalar (v : Value) : Bool := v.time = 0

/-- A ratio, up to time units. -/
def isFractional : Value → Bool
  | exact m => m.isFractional
  | real _ => false

/-- An integer, up to time units. -/
def isIntegral : Value → Bool
  | exact m => m.isIntegral
  | real _ => false

/-- A terminating decimal, up to time units. -/
def isDecimal : Value → Bool
  | exact m => m.isDecimal
  | real _ => false

/-- A rational power of a ratio over the tracked primes. -/
def isEqualTemperament : Value → Bool
  | exact m => m.isEqualTemperament
  | real _ => false

/-- A rational power of two. -/
def isPowerOfTwo : Value → Bool
  | exact m => m.isPowerOfTwo
  | real _ => false

/-- The nearest double that can be had, ignoring time units. -/
def valueOf : Value → Float
  | exact m => m.valueOf
  | real a => a.value

/-- The size of the magnitude in cents, ignoring time units. -/
def totalCents : Value → Float
  | exact m => m.totalCents
  | real a => a.totalCents

/-- A value as it is written in a domain. -/
def text (v : Value) (d : Domain) : String :=
  match v with
  | exact m => m.text d
  | real a => a.text d

/-- The size in cents of a value without time units. -/
def toCents (v : Value) : Except Fault Float :=
  if v.isScalar then .ok v.totalCents else .error (.notScalar (v.text .linear))

/-- The real value nearest to a value. -/
def toApprox : Value → Approx
  | exact m => m.toApprox
  | real a => a

/-- The ratio that a value denotes, unless it is irrational. -/
def toRatio : Value → Except Fault Rat
  | exact m => m.toRatio
  | real _ => .error .irrational

/-- The integer that a value denotes. -/
def toInteger : Value → Except Fault Int
  | exact m => m.toInteger
  | real a => .error (.notInteger a.linearText)

/-- A plain number as a value: doubles become real, all others exact. -/
def ofNumber (s : Settings) : Number → Except Fault Value
  | .integer n => (Monzo.ofRatio s n).map exact
  | .ratio q => (Monzo.ofRatio s q).map exact
  | .double x => .ok (real { value := x })

/-- Two values of a common kind, which is real if either one is. -/
def coerce : Value → Value → Value × Value
  | exact m, exact n => (exact m, exact n)
  | v, w => (real v.toApprox, real w.toApprox)

end Value

end Intonation
