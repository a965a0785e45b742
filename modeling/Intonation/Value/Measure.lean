import Intonation.Monzo.Divisors
import Intonation.Monzo.Dot
import Intonation.Monzo.Reduction

/-!
# Measuring values by values

Logarithms, remainders, reductions, projections, roundings, pairings and common divisors of
values of either kind.

## Main definitions

* `Value.log`, `Value.dot`, `Value.geometricInverse`
* `Value.modulo`, `Value.reduce`, `Value.project`
* `Value.roundTo`, `Value.pitchRoundTo`
* `Value.gcd`, `Value.lcm`
-/

namespace Intonation.Value

/-- The logarithm of one value in the base of another. -/
def log (s : Settings) : Value → Value → Except Fault Value := lift (Monzo.log s) Approx.log

/-- The dot product of two exponent vectors. -/
def dot (s : Settings) : Value → Value → Except Fault Rat
  | exact m, exact n => m.dot s n
  | _, _ => .error .realDot

/-- The vector in the same direction whose dot product with the value is one. -/
def geometricInverse (s : Settings) : Value → Except Fault Value
  | exact m => (m.geometricInverse s).map exact
  | real a => .error (.noGeometricInverse a.linearText)

/-- The remainder with the sign of the divisor; under `ceiling` the divisor stands for zero. -/
def modulo (s : Settings) (v w : Value) (ceiling : Bool) : Except Fault Value :=
  lift (fun m n => m.modulo s n ceiling) (fun a b => a.modulo b ceiling) v w

/-- Divides by powers of a period until the value lies within one. -/
def reduce (s : Settings) (v w : Value) (ceiling : Bool) : Except Fault Value :=
  lift (fun m n => m.reduce s n ceiling) (fun a b => a.reduce s b ceiling) v w

/-- A base raised to the number of octaves that a value spans. -/
def project (s : Settings) (v base : Value) : Except Fault Value :=
  let spanned := base.pow s (real { value := v.totalCents / 1200 })
  match v with
  | exact m => if m.isPowerOfTwo then base.powNumber s (.ratio m.firstExponent) else spanned
  | real _ => spanned

/-- The nearest multiple of another value. -/
def roundTo (s : Settings) : Value → Value → Except Fault Value :=
  lift (Monzo.roundTo s) Approx.roundTo

/-- The nearest power of another value. -/
def pitchRoundTo (s : Settings) : Value → Value → Except Fault Value :=
  lift (Monzo.pitchRoundTo s) (Approx.pitchRoundTo s)

/-- The largest value that divides both. -/
def gcd (s : Settings) : Value → Value → Except Fault Value
  | exact m, exact n => (m.gcd s n).map exact
  | _, _ => .error (.realDivisors "gcd")

/-- The smallest value that both divide. -/
def lcm (s : Settings) : Value → Value → Except Fault Value
  | exact m, exact n => (m.lcm s n).map exact
  | _, _ => .error (.realDivisors "lcm")

end Intonation.Value
