import Intonation.Interval.Arithmetic

/-!
# Operators on quantities

An operator takes two intervals, two vals, or a val and an interval that scales it or that it
maps. All other pairs live in domains that do not fit.

## Main definitions

* `Quantity.add`, `Quantity.sub`, `Quantity.modulo`
* `Quantity.mul`, `Quantity.div`, `Quantity.dot`
* `Quantity.neg`, `Quantity.abs`, `Quantity.inverse`
* `Quantity.equals`, `Quantity.strictEquals`, `Quantity.sameKey`
-/

namespace Intonation.Quantity

/-- An operator on intervals that has to take place within one domain. -/
def withinDomain (operation : String) (op : Interval → Interval → Except Fault Interval) :
    Quantity → Quantity → Except Fault Quantity
  | interval a, interval b => (op a b).map interval
  | q, r => .error (.domainsDiffer operation q.domain r.domain)

/-- The negated or reversed quantity. -/
def neg (s : Settings) : Quantity → Except Fault Quantity
  | interval i => (i.neg s).map interval
  | val v => (v.neg s).map val

/-- The magnitude or the distance to unison. -/
def abs (s : Settings) : Quantity → Except Fault Quantity
  | interval i => (i.abs s).map interval
  | val v => (v.abs s).map val

/-- The reciprocal, or the dual of an interval or val. -/
def inverse (s : Settings) : Quantity → Except Fault Quantity
  | interval i => i.inverse s
  | val v => (v.inverse s).map interval

/-- The sum of two intervals or of two vals. -/
def add (s : Settings) : Quantity → Quantity → Except Fault Quantity
  | val v, val w => (v.add s w).map val
  | q, r => withinDomain "addition" (Interval.add s) q r

/-- The difference of two intervals or of two vals. -/
def sub (s : Settings) : Quantity → Quantity → Except Fault Quantity
  | val v, val w => (v.sub s w).map val
  | q, r => withinDomain "subtraction" (Interval.sub s) q r

/-- The remainder of two intervals. -/
def modulo (s : Settings) (q r : Quantity) (ceiling : Bool) : Except Fault Quantity :=
  withinDomain "modulo" (fun a b => a.modulo s b ceiling) q r

/-- The product of two intervals, or a val scaled by an interval on either side. -/
def mul (s : Settings) : Quantity → Quantity → Except Fault Quantity
  | interval a, interval b => (a.mul s b).map interval
  | interval i, val v =>
    if i.domain = .linear then (v.mul s i).map val
    else .error (.linearRequired "multiplication")
  | val v, interval i => (v.mul s i).map val
  | val _, val _ => .error .valScalar

/-- The quotient of two intervals, or a val scaled down by an interval. -/
def div (s : Settings) : Quantity → Quantity → Except Fault Quantity
  | interval a, interval b => (a.div s b).map interval
  | interval _, val _ => .error (.linearRequired "division")
  | val v, interval i => (v.div s i).map val
  | val _, val _ => .error .valScalar

/-- The pairing of two quantities. -/
def dot (s : Settings) : Quantity → Quantity → Except Fault Interval
  | interval a, interval b => a.dot s b
  | interval i, val v | val v, interval i => i.dotVal s v
  | val v, val w => v.dot s w

/-- The same size; an interval and a val differ. -/
def equals : Quantity → Quantity → Bool
  | interval a, interval b => a.equals b
  | val v, val w => v.equals w
  | _, _ => false

/-- The same components; an interval and a val differ. -/
def strictEquals (s : Settings) : Quantity → Quantity → Except Fault Bool
  | interval a, interval b => a.strictEquals s b
  | val v, val w => v.strictEquals s w
  | _, _ => .ok false

/-- Two quantities are filed under the same numbers. -/
def sameKey : Quantity → Quantity → Bool
  | interval a, interval b => a.sameKey b
  | val v, val w => v.sameKey w
  | _, _ => false

end Intonation.Quantity
