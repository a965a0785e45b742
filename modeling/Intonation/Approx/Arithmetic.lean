import Intonation.Approx.Basic

/-!
# Real arithmetic

Sums and remainders need equal time units; products add them. Division by zero gives an infinity
or no number, never a fault.

## Main definitions

* `Approx.add`, `Approx.sub`, `Approx.mul`, `Approx.div`: the four operations
* `Approx.pow`, `Approx.log`: powers and logarithms
* `Approx.modulo`, `Approx.reduce`: remainders of sums and of products
* `Approx.lensAdd`, `Approx.lensSub`: harmonic sums
* `Approx.roundTo`, `Approx.pitchRoundTo`: multiples and powers nearest to a value
-/

namespace Intonation

/-- A quotient in which zero divides into an infinity with the sign of both, or into no number. -/
def Double.quotient (a b : Float) : Float :=
  if b != 0 then a / b
  else if a == 0 || a.isNaN then Double.notANumber
  else if Double.isNegative b then -Double.infinityLike a
  else Double.infinityLike a

/-- The natural logarithm of a nonnegative double. -/
def Double.naturalLog (x : Float) : Float := if x == 0 then -Double.infinity else x.log

namespace Approx

/-- Fails unless two values have the same time units. -/
def requireUnits (operation : String) (a b : Approx) : Except Fault Unit :=
  if a.time = b.time then .ok () else .error (.disparateUnits operation)

/-- The value with its sign turned. -/
def neg (a : Approx) : Approx := { a with value := -a.value }

/-- The reciprocal. -/
def inverse (a : Approx) : Approx := ⟨-a.time, Double.quotient 1 a.value⟩

/-- The magnitude. -/
def abs (a : Approx) : Approx := { a with value := a.value.abs }

/-- The magnitude or its reciprocal, whichever is at least one. -/
def pitchAbs (a : Approx) : Approx := if a.abs.value < 1 then a.abs.inverse else a.abs

/-- The sum. -/
def add (a b : Approx) : Except Fault Approx := do
  requireUnits "add" a b
  .ok { a with value := a.value + b.value }

/-- The difference. -/
def sub (a b : Approx) : Except Fault Approx := do
  requireUnits "subtract" a b
  .ok { a with value := a.value - b.value }

/-- The product. -/
def mul (a b : Approx) : Approx := ⟨a.time + b.time, a.value * b.value⟩

/-- The quotient. -/
def div (a b : Approx) : Approx := ⟨a.time - b.time, Double.quotient a.value b.value⟩

/-- The exponent of the time unit after raising to a power, which must then be rational. -/
def powTime (s : Settings) (time : Rat) (exponent : Float) : Except Fault Rat :=
  if time = 0 then .ok 0
  else match Double.toRat? exponent with
    | none => .error (if exponent.isNaN then .notANumber else .infinite)
    | some q =>
      let rational := Ratio.approximate q s.maxPowDenominator
      if Double.nearest rational == exponent then .ok (time * rational)
      else .error .irrationalTimePower

/-- The power of a double; zero to a negative power is infinite. -/
def powValue (value exponent : Float) : Except Fault Float :=
  if value < 0 && !Double.isWhole exponent then .ok Double.notANumber
  else
    let result := value.pow exponent
    if result.isInf && value.isFinite && exponent.isFinite then
      if value == 0 then .ok Double.infinity else .error .magnitudeBound
    else .ok result

/-- The power with a scalar exponent. -/
def pow (s : Settings) (a : Approx) (exponent : Float) : Except Fault Approx := do
  let time ← powTime s a.time exponent
  let value ← powValue a.value exponent
  .ok ⟨time, value⟩

/-- The logarithm in the given base; two negative values are taken by their magnitudes. -/
def log (a b : Approx) : Except Fault Approx :=
  if a.time ≠ 0 ∨ b.time ≠ 0 then .error .timeLogarithm
  else if a.value < 0 && b.value < 0 then
    .ok { value := Double.quotient (Double.naturalLog (-a.value)) (Double.naturalLog (-b.value)) }
  else if a.value < 0 || b.value < 0 then .ok { value := Double.notANumber }
  else .ok { value := Double.quotient (Double.naturalLog a.value) (Double.naturalLog b.value) }

/-- The remainder with the sign of the divisor; under `ceiling` the divisor stands for zero. -/
def modulo (a b : Approx) (ceiling : Bool) : Except Fault Approx := do
  requireUnits "reduce" a b
  if b.value == 0 then .ok { a with value := Double.notANumber }
  else
    let rest := Double.modulo a.value b.value
    .ok { a with value := if ceiling && rest == 0 then b.value else rest }

/-- The number of whole periods in a span, or one less for a whole number under `ceiling`. -/
def wholePeriods (periods : Float) (ceiling : Bool) : Int :=
  if ceiling then Double.ceilInt periods - 1 else Double.floorInt periods

/-- Divides by powers of a period until the value lies within one. -/
def reduce (s : Settings) (a b : Approx) (ceiling : Bool) : Except Fault Approx := do
  let period := b.totalCents
  if period == 0 || !period.isFinite then .error .unisonReduction
  else
    let periods := a.totalCents / period
    if periods.isFinite then
      let power ← b.pow s (Double.nearest (wholePeriods periods ceiling))
      .ok (a.div power)
    else .ok { a with value := Double.notANumber }

/-- The harmonic sum: the reciprocal of the sum of the reciprocals. -/
def lensAdd (a b : Approx) : Except Fault Approx := do
  let total ← a.inverse.add b.inverse
  .ok total.inverse

/-- The harmonic difference: the reciprocal of the difference of the reciprocals. -/
def lensSub (a b : Approx) : Except Fault Approx := do
  let total ← a.inverse.sub b.inverse
  .ok total.inverse

/-- The nearest integer to a finite double, a half rounding up. -/
def nearestInteger (x : Float) : Int := Double.floorInt (x + 0.5)

/-- The nearest multiple of another value. -/
def roundTo (a b : Approx) : Except Fault Approx := do
  requireUnits "round" a b
  let quotient := Double.quotient a.value b.value
  if quotient.isFinite then
    .ok ⟨b.time, b.value * Double.nearest (nearestInteger quotient)⟩
  else .ok { a with value := Double.notANumber }

/-- The nearest power of another value. -/
def pitchRoundTo (s : Settings) (a b : Approx) : Except Fault Approx := do
  let exponent ← a.log b
  if exponent.value.isFinite then b.pow s (Double.nearest (nearestInteger exponent.value))
  else .ok { a with value := Double.notANumber }

/-- The same time units and the same value, where what is no number equals itself. -/
def strictEquals (a b : Approx) : Bool :=
  a.time = b.time && if a.value.isNaN then b.value.isNaN else a.value == b.value

end Approx

end Intonation
