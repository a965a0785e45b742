import Intonation.Interval.Arithmetic
import Intonation.Literal.Lowering

/-!
# Arrows and fragile spellings

Ups and lifts are spelled relative to the inflection sizes of a context. When the context
changes, values spelled with the old sizes no longer denote themselves. A registry remembers
such values, and gives copies of them that do not depend on a context.

## Main definitions

* `Arrow`: up, down, lift and drop
* `Quantity.move`: moves a quantity by an arrow
* `Registry`: the fragile values remembered, in order
-/

namespace Intonation

/-- The ways of moving a quantity by one inflection. -/
inductive Arrow
  | up
  | down
  | lift
  | drop
  deriving DecidableEq, Repr

namespace Arrow

/-- The ups that an arrow adds. -/
def ups : Arrow → Int
  | up => 1
  | down => -1
  | lift | drop => 0

/-- The lifts that an arrow adds. -/
def lifts : Arrow → Int
  | lift => 1
  | drop => -1
  | up | down => 0

/-- The inflection that an arrow moves by. -/
def size (s : Settings) (c : Context) : Arrow → Except Fault Monzo
  | up | down => c.upValue s
  | lift | drop => c.liftValue s

/-- A value moved by an arrow of a context. -/
def moveValue (s : Settings) (c : Context) (a : Arrow) (v : Value) : Except Fault Value := do
  let inflection ← a.size s c
  match a with
  | up | lift => v.mul s (.exact inflection)
  | down | drop => v.div s (.exact inflection)

end Arrow

/-- Components with one more arrow. -/
def Components.withArrow (a : Arrow) (c : Components) : Components :=
  { c with ups := c.ups + a.ups, lifts := c.lifts + a.lifts }

/-- Inflections with one more arrow. -/
def Inflections.withArrow (a : Arrow) (i : Inflections) : Inflections :=
  { i with ups := i.ups + a.ups, lifts := i.lifts + a.lifts }

/-- The literal of an interval with one more arrow, if its kind has arrows. -/
def Literal.intervalWithArrow? (a : Arrow) : Literal → Option Literal
  | .interval name i => some (.interval name (i.withArrow a))
  | .pitch name i => some (.pitch name (i.withArrow a))
  | .monzo c => some (.monzo (c.withArrow a))
  | _ => none

/-- The literal of a val with one more arrow, if its kind has arrows. -/
def Literal.valWithArrow? (a : Arrow) : Literal → Option Literal
  | .val c => some (.val (c.withArrow a))
  | _ => none

/-- An interval moved by an arrow; it keeps a literal only if its kind has arrows. -/
def Interval.move (s : Settings) (c : Context) (a : Arrow) (i : Interval) :
    Except Fault Interval := do
  let value ← a.moveValue s c i.value
  return i.derive value (i.literal.bind (Literal.intervalWithArrow? a))

/-- A val moved by an arrow; it keeps a literal only if its kind has arrows. -/
def Val.move (s : Settings) (c : Context) (a : Arrow) (v : Val) : Except Fault Val := do
  let value ← a.moveValue s c v.value
  Val.make value v.equave (v.literal.bind (Literal.valWithArrow? a))

namespace Quantity

/-- A quantity moved by an arrow. -/
def move (s : Settings) (c : Context) (a : Arrow) : Quantity → Except Fault Quantity
  | interval i => (i.move s c a).map interval
  | val v => (v.move s c a).map val

/-- A copy without spelling that depends on a context. -/
def broken : Quantity → Quantity
  | interval i => interval i.broken
  | val v => val v.broken

end Quantity

/-- Values whose literal depends on the inflection sizes in force, in the order remembered. -/
abbrev Registry := List Quantity

namespace Registry

/-- Remembers a value. -/
def track (r : Registry) (q : Quantity) : Registry := r ++ [q]

/-- Remembers a moved value if it kept a literal. -/
def trackMoved (r : Registry) (q : Quantity) : Registry :=
  if q.literal.isSome then r.track q else r

/-- Remembers a lowered value if it is written with ups or lifts. -/
def trackLowered (r : Registry) (l : Literal) (q : Quantity) : Registry :=
  if l.isFragile then r.track q else r

/-- Copies of the remembered values that do not depend on a context. -/
def broken (r : Registry) : List Quantity := r.map Quantity.broken

end Registry

end Intonation
