import Intonation.Monzo.Logarithm

/-!
# Remainders and rounding

A remainder takes multiples of a divisor out of a value, a reduction takes powers of a period
out of it. Rounding finds the nearest multiple or the nearest power.

## Main definitions

* `Ratio.floorMod`: the remainder with the sign of the divisor
* `Monzo.modulo`, `Monzo.reduce`: remainders of sums and of products
* `Monzo.roundTo`, `Monzo.pitchRoundTo`: multiples and powers nearest to a value
-/

namespace Intonation

/-- The remainder with the sign of the divisor. -/
def Ratio.floorMod (x y : Rat) : Rat := x - y * ((x / y).floor : Rat)

/-- The remainder with the sign of the divisor; under `ceiling` the divisor stands for zero. -/
def Ratio.modulo (x y : Rat) (ceiling : Bool) : Rat :=
  let rest := Ratio.floorMod x y
  if ceiling ∧ rest = 0 then y else rest

/-- The nearest integer to a ratio, a half rounding up. -/
def Ratio.nearestInteger (q : Rat) : Int := (q + 1 / 2).floor

/-- The number of whole periods in a ratio, or one less for a whole number under `ceiling`. -/
def Ratio.wholePeriods (q : Rat) (ceiling : Bool) : Int :=
  if ceiling then q.ceil - 1 else q.floor

/-- The nearest integer to a value, a half rounding up, unless the value is not finite. -/
def Value.nearestInteger? (v : Value) : Option Int :=
  match v with
  | .exact m =>
    if m.isFractional then some (Ratio.nearestInteger m.ratio)
    else if m.valueOf.isFinite then some (Approx.nearestInteger m.valueOf)
    else none
  | .real a => if a.value.isFinite then some (Approx.nearestInteger a.value) else none

namespace Monzo

/-- The remainder with the sign of the divisor, which is exact for two ratios. -/
def modulo (s : Settings) (a b : Monzo) (ceiling : Bool) : Except Fault Value :=
  if a.isFractional && b.isFractional then do
    requireUnits "reduce" a b
    if b.ratio = 0 then (a.toApprox.modulo b.toApprox ceiling).map .real
    else ratioResult s a b (Ratio.modulo a.ratio b.ratio ceiling)
  else (a.toApprox.modulo b.toApprox ceiling).map .real

/-- The exact number of periods in a value, if there is one. -/
def periods? (s : Settings) (a b : Monzo) : Except Fault (Option Rat) :=
  if a.isScalar && b.isScalar then do
    let magnitude ← a.abs s
    let period ← b.abs s
    match ← magnitude.log s period with
    | .exact x => x.toRatio.map some
    | .real _ => .ok none
  else .ok none

/-- The quotient by a whole power of a period. -/
def divPower (s : Settings) (a b : Monzo) (count : Int) : Except Fault Value := do
  let power ← b.powRatio s count
  (Value.exact a).div s power

/-- Divides by powers of a period until the value lies within one. -/
def reduce (s : Settings) (a b : Monzo) (ceiling : Bool) : Except Fault Value := do
  let period := b.totalCents
  if period == 0 || !period.isFinite then .error .unisonReduction
  else
    match ← periods? s a b with
    | some x => divPower s a b (Ratio.wholePeriods x ceiling)
    | none =>
      let approximate := a.totalCents / period
      if approximate.isFinite then divPower s a b (Approx.wholePeriods approximate ceiling)
      else (a.toApprox.reduce s b.toApprox ceiling).map .real

/-- A real value that is no number, with the time units of a value. -/
def undefinedLike (m : Monzo) : Value := .real ⟨m.time, Double.notANumber⟩

/-- The nearest multiple of another value. -/
def roundTo (s : Settings) (a b : Monzo) : Except Fault Value := do
  requireUnits "round" a b
  let quotient ← a.div s b
  match quotient.nearestInteger? with
  | none => .ok a.undefinedLike
  | some n => do
    let factor ← ofRatio s n
    (b.mul s factor).map .exact

/-- The nearest power of another value. -/
def pitchRoundTo (s : Settings) (a b : Monzo) : Except Fault Value := do
  let exponent ← a.log s b
  match exponent.nearestInteger? with
  | none => .ok a.undefinedLike
  | some n => b.powRatio s n

end Monzo

end Intonation
