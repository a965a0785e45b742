import Intonation.Value.Basic

/-!
# Counting ups and lifts

A real correction is split into whole numbers of the up and lift inflections of a context, the
larger one first. What they leave is reported as whole cents and a residue.

## Main definitions

* `ArrowCount`: the counts and what they leave
* `ArrowCount.ofCents`: splits a correction
-/

namespace Intonation

/-- How many ups and lifts make up a correction, and what is left of it. -/
structure ArrowCount where
  ups : Int
  lifts : Int
  steps : Int
  residue : Float

namespace ArrowCount

/-- Nothing is left over. -/
def isExact (c : ArrowCount) : Bool := c.steps = 0 && c.residue == 0

/-- The nearest integer to a double, a half rounding up. -/
def round (x : Float) : Except Fault Int :=
  match Double.floorInt? (x + 0.5) with
  | some n => .ok n
  | none => .error (if x.isNaN then .notANumber else .infinite)

/-- A number of inflections of a size, and what they leave of a correction. -/
def take (total size : Float) : Except Fault (Int × Float) := do
  let count ← round (total / size)
  .ok (count, total - Double.nearest count * size)

/-- The counts when whole cents are split off what the inflections leave. -/
def finish (ups lifts : Int) (total : Float) : Except Fault ArrowCount := do
  let steps ← round total
  .ok { ups, lifts, steps, residue := total - Double.nearest steps }

/-- Splits a correction, the larger inflection first; sizes that are not positive count
nothing. -/
def ofCents (total up lift : Float) : Except Fault ArrowCount :=
  if up ≤ 0 || lift ≤ 0 then finish 0 0 total
  else if up < lift then do
    let (lifts, total) ← take total lift
    let (ups, total) ← take total up
    finish ups lifts total
  else do
    let (ups, total) ← take total up
    let (lifts, total) ← take total lift
    finish ups lifts total

end ArrowCount

end Intonation
