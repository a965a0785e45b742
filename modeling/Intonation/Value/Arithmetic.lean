import Intonation.Monzo.Arithmetic

/-!
# Arithmetic of values

Two exact values meet in exact arithmetic; as soon as one operand is real the other becomes real
too.

## Main definitions

* `Value.lift`: an operation on values from its exact and its real form
* `Value.add`, `Value.sub`, `Value.mul`, `Value.div`, `Value.pow`: arithmetic
* `Value.ofSubgroup`: the product of a basis raised to exponents
-/

namespace Intonation.Value

/-- An operation on values from its exact form, falling back to its real form. -/
def lift (onExact : Monzo → Monzo → Except Fault Value)
    (onReal : Approx → Approx → Except Fault Approx) : Value → Value → Except Fault Value
  | exact m, exact n => onExact m n
  | v, w => (onReal v.toApprox w.toApprox).map real

/-- The value with its sign turned. -/
def neg (s : Settings) : Value → Except Fault Value
  | exact m => (m.neg s).map exact
  | real a => .ok (real a.neg)

/-- The reciprocal. -/
def inverse (s : Settings) : Value → Except Fault Value
  | exact m => m.inverse s
  | real a => .ok (real a.inverse)

/-- The magnitude. -/
def abs (s : Settings) : Value → Except Fault Value
  | exact m => (m.abs s).map exact
  | real a => .ok (real a.abs)

/-- The magnitude or its reciprocal, whichever is at least one. -/
def pitchAbs (s : Settings) : Value → Except Fault Value
  | exact m => m.pitchAbs s
  | real a => .ok (real a.pitchAbs)

/-- The sum. -/
def add (s : Settings) : Value → Value → Except Fault Value := lift (Monzo.add s) Approx.add

/-- The difference. -/
def sub (s : Settings) : Value → Value → Except Fault Value := lift (Monzo.sub s) Approx.sub

/-- The product. -/
def mul (s : Settings) : Value → Value → Except Fault Value :=
  lift (fun m n => (Monzo.mul s m n).map exact) fun a b => .ok (a.mul b)

/-- The quotient. -/
def div (s : Settings) : Value → Value → Except Fault Value :=
  lift (Monzo.div s) fun a b => .ok (a.div b)

/-- The power with a plain number as exponent. -/
def powNumber (s : Settings) (v : Value) (exponent : Number) : Except Fault Value :=
  match v with
  | exact m => m.powNumber s exponent
  | real a => do
    let x ← exponent.toDouble
    let power ← a.pow s x
    .ok (real power)

/-- The power with a scalar exponent. -/
def pow (s : Settings) (v exponent : Value) : Except Fault Value :=
  match v with
  | exact m => m.pow s exponent
  | real a =>
    if exponent.isScalar then (a.pow s exponent.valueOf).map real
    else .error .nonScalarPower

/-- The harmonic sum: the reciprocal of the sum of the reciprocals. -/
def lensAdd (s : Settings) : Value → Value → Except Fault Value :=
  lift
    (fun m n => do
      let total ← add s (← m.inverse s) (← n.inverse s)
      inverse s total)
    Approx.lensAdd

/-- The harmonic difference: the reciprocal of the difference of the reciprocals. -/
def lensSub (s : Settings) : Value → Value → Except Fault Value :=
  lift
    (fun m n => do
      let total ← sub s (← m.inverse s) (← n.inverse s)
      inverse s total)
    Approx.lensSub

/-- Multiplies a value by basis elements raised to exponents, in turn. -/
def mulPowers (s : Settings) (count : Nat) : List (Rat × Rat) → Value → Except Fault Value
  | [], v => .ok v
  | (exponent, element) :: rest, v => do
    let base ← Monzo.ofRatioOver s count element
    let power ← base.powRatio s exponent
    mulPowers s count rest (← mul s v power)

/-- The product of basis elements raised to exponents. -/
def ofSubgroup (s : Settings) (count : Nat) (exponents basis : List Rat) : Except Fault Value := do
  let one ← Monzo.unity s count
  mulPowers s count (exponents.zip basis) (exact one)

end Intonation.Value
