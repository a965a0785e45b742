import Intonation.Interval.Metadata
import Intonation.Literal.Spelling
import Intonation.Value.Measure

/-!
# Intervals and vals

An interval pairs a value with a linear or logarithmic domain and, if it has one, with the
literal it was written as. A val is a tuning map measured against an equave.

## Main definitions

* `Interval`, `Interval.make`: a value in a domain
* `Val`, `Val.make`: a tuning map
* `Quantity`: an interval or a val
-/

namespace Intonation

/-- A literal that belongs to a domain; one of another domain is dropped. -/
def Literal.within (d : Domain) (l : Option Literal) : Option Literal :=
  l.filter fun l => l.domain = d

/-- A value in a domain, with the literal it is displayed by and its metadata. -/
structure Interval where
  value : Value
  domain : Domain
  literal : Option Literal := none
  metadata : Metadata := {}

namespace Interval

/-- An interval in the linear or the logarithmic domain; a literal of another domain is
dropped. -/
def make (value : Value) (domain : Domain) (literal : Option Literal) (metadata : Metadata) :
    Except Fault Interval :=
  if domain = .cologarithmic then .error .cologarithmicInterval
  else .ok { value, domain, literal := Literal.within domain literal, metadata }

/-- A linear interval. -/
def linear (value : Value) (literal : Option Literal) (metadata : Metadata) : Interval :=
  { value, domain := .linear, literal := Literal.within .linear literal, metadata }

/-- A logarithmic interval. -/
def logarithmic (value : Value) (literal : Option Literal) (metadata : Metadata) : Interval :=
  { value, domain := .logarithmic, literal := Literal.within .logarithmic literal, metadata }

/-- Another value and literal with the domain and metadata of an interval. -/
def derive (i : Interval) (value : Value) (literal : Option Literal) : Interval :=
  { i with value, literal := Literal.within i.domain literal }

/-- An integer. -/
def ofInteger (s : Settings) (n : Int) : Except Fault Interval :=
  (Monzo.ofRatio s n).map fun m => linear (.exact m) (some (.integer n)) {}

/-- A ratio in lowest terms. -/
def ofRatio (s : Settings) (q : Rat) : Except Fault Interval :=
  (Monzo.ofRatio s q).map fun m => linear (.exact m) (some (Literal.ofRatio q)) {}

/-- The integer that an interval denotes if it is one, and otherwise the nearest double. -/
def valueOf (i : Interval) : Number :=
  match i.value with
  | .exact m => if m.isIntegral then .integer m.ratio.num else .double m.valueOf
  | .real a => .double a.value

/-- The order of the values of two intervals. -/
def compare (s : Settings) (a b : Interval) : Except Fault Int :=
  let (v, w) := Value.coerce a.value b.value
  v.compare s w

/-- The same size, whatever the domains. -/
def equals (a b : Interval) : Bool := a.value.equals b.value

/-- The same domain and the same components. -/
def strictEquals (s : Settings) (a b : Interval) : Except Fault Bool :=
  if a.domain = b.domain then a.value.strictEquals s b.value else .ok false

/-- Two intervals are filed under the same number. -/
def sameKey (a b : Interval) : Bool := a.value.sameKey b.value

end Interval

/-- A tuning map, measured against an equave. -/
structure Val where
  /-- The map, whose prime exponents are step counts. -/
  value : Value
  /-- The interval of equivalence. -/
  equave : Value
  literal : Option Literal := none

namespace Val

/-- A tuning map without time units; a literal of another domain is dropped. -/
def make (value equave : Value) (literal : Option Literal) : Except Fault Val :=
  if value.isScalar && equave.isScalar then
    .ok { value, equave, literal := Literal.within .cologarithmic literal }
  else .error (.timeVal (value.text .linear))

/-- The steps of the equave. -/
def divisions (s : Settings) (v : Val) : Except Fault Rat := v.value.dot s v.equave

/-- The same map of the same equave. -/
def equals (v w : Val) : Bool := v.value.equals w.value && v.equave.equals w.equave

/-- The same components of the map and of the equave. -/
def strictEquals (s : Settings) (v w : Val) : Except Fault Bool := do
  if ← v.value.strictEquals s w.value then v.equave.strictEquals s w.equave else .ok false

/-- Two vals are filed under the same numbers. -/
def sameKey (v w : Val) : Bool := v.value.sameKey w.value && v.equave.sameKey w.equave

end Val

/-- An interval or a val. -/
inductive Quantity
  | interval (i : Interval)
  | val (v : Val)

namespace Quantity

/-- The value of a quantity. -/
def value : Quantity → Value
  | interval i => i.value
  | val v => v.value

/-- The domain of a quantity. -/
def domain : Quantity → Domain
  | interval i => i.domain
  | val _ => .cologarithmic

/-- The literal of a quantity. -/
def literal : Quantity → Option Literal
  | interval i => i.literal
  | val v => v.literal

end Quantity

end Intonation
