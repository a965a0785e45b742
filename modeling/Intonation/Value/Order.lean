import Intonation.Value.Basic

/-!
# Comparing values

Two values are strictly equal when they have the same components over a common basis, and equal
when they denote the same number of the same time units. The order compares numbers alone.

## Main definitions

* `Value.strictEquals`, `Value.equals`: the two equalities
* `Value.compare`: the order, as -1, 0 or 1
* `Value.sameKey`: two values are filed under the same number
-/

namespace Intonation

/-- The same components over a common basis. -/
def Monzo.strictEquals (s : Settings) (a b : Monzo) : Except Fault Bool := do
  let (a, b) ← Monzo.align s a b
  .ok (a.time = b.time && a.exps = b.exps && a.residual = b.residual && a.cents == b.cents)

/-- The sign of a comparison. -/
def signOf (less greater : Bool) : Int := (if greater then 1 else 0) - (if less then 1 else 0)

namespace Number

/-- The same number, compared exactly; what is no number equals nothing. -/
def equals (a b : Number) : Bool :=
  match a.toRat, b.toRat with
  | .ok p, .ok q => p = q
  | .error _, .error _ =>
    match a, b with
    | double x, double y => x == y
    | _, _ => false
  | _, _ => false

end Number

namespace Value

/-- The same components over a common basis; an exact and a real value differ. -/
def strictEquals (s : Settings) : Value → Value → Except Fault Bool
  | exact m, exact n => m.strictEquals s n
  | real a, real b => .ok (a.strictEquals b)
  | _, _ => .ok false

/-- The same number with the same time units. -/
def equals (v w : Value) : Bool :=
  v.time = w.time &&
    match v, w with
    | exact m, exact n =>
      if m.isFractional && n.isFractional then m.ratio = n.ratio else m.valueOf == n.valueOf
    | _, _ => v.valueOf == w.valueOf

/-- The order of the nearest doubles of two values. -/
def compareDoubles (v w : Value) : Int := signOf (v.valueOf < w.valueOf) (w.valueOf < v.valueOf)

/-- The order of two numbers, ignoring time units: exact for ratios, by doubles otherwise. -/
def compareNumbers (v w : Value) : Int :=
  match v, w with
  | exact m, exact n =>
    if m.isFractional && n.isFractional then signOf (m.ratio < n.ratio) (n.ratio < m.ratio)
    else compareDoubles v w
  | _, _ => compareDoubles v w

/-- The order of two values, where strictly equal exact values are equal. -/
def compare (s : Settings) (v w : Value) : Except Fault Int :=
  match v with
  | exact m => do
    match w with
    | exact n => if ← m.strictEquals s n then .ok 0 else .ok (compareNumbers v w)
    | real _ => .ok (compareNumbers v w)
  | real _ => .ok (compareNumbers v w)

/-- The number under which a value is filed. -/
def key : Value → Number
  | exact m => if m.isFractional then .ratio m.ratio else .double m.valueOf
  | real a => .double a.value

/-- Two values are filed under the same number with the same time units. -/
def sameKey (v w : Value) : Bool := v.time = w.time && v.key.equals w.key

end Value

end Intonation
