import Intonation.Value.Basic

/-!
# Exact arithmetic

Multiplication adds exponents, which is what composes intervals. Sums are exact for ratios.
Operations that cannot stay exact give real values.

## Main definitions

* `Monzo.neg`, `Monzo.inverse`, `Monzo.abs`, `Monzo.pitchAbs`: unary operations
* `Monzo.add`, `Monzo.sub`, `Monzo.mul`, `Monzo.div`: the four operations
* `Monzo.powRatio`, `Monzo.powNumber`, `Monzo.pow`: powers
-/

namespace Intonation.Monzo

/-! ## Unary operations -/

/-- The value with its sign turned. -/
def neg (s : Settings) (m : Monzo) : Except Fault Monzo :=
  checked s { m with residual := -m.residual }

/-- The exponents of the reciprocal of a value that is not zero. -/
def reciprocal (m : Monzo) : Monzo where
  time := -m.time
  exps := m.exps.map fun e => -e
  residual := m.residual⁻¹
  cents := -m.cents

/-- The reciprocal; that of zero is a real infinity. -/
def inverse (s : Settings) (m : Monzo) : Except Fault Value :=
  if m.residual = 0 then .ok (.real ⟨-m.time, Double.infinity⟩)
  else (checked s m.reciprocal).map .exact

/-- The magnitude. -/
def abs (s : Settings) (m : Monzo) : Except Fault Monzo :=
  checked s { m with residual := m.residual.abs }

/-- The magnitude or its reciprocal, whichever is at least one. -/
def pitchAbs (s : Settings) (m : Monzo) : Except Fault Value := do
  let magnitude ← abs s m
  if magnitude.totalCents < 0 then inverse s magnitude else .ok (.exact magnitude)

/-! ## Sums -/

/-- A ratio over the primes of two operands, with the time units of the first. -/
def ratioResult (s : Settings) (a b : Monzo) (q : Rat) : Except Fault Value := do
  let m ← ofRatioOver s (max a.components b.components) q
  .ok (.exact { m with time := a.time })

/-- Fails unless two values have the same time units. -/
def requireUnits (operation : String) (a b : Monzo) : Except Fault Unit :=
  if a.time = b.time then .ok () else .error (.disparateUnits operation)

/-- The sum, which is exact for two ratios. -/
def add (s : Settings) (a b : Monzo) : Except Fault Value := do
  requireUnits "add" a b
  if a.isFractional && b.isFractional then ratioResult s a b (a.ratio + b.ratio)
  else (a.toApprox.add b.toApprox).map .real

/-- The difference, which is exact for two ratios. -/
def sub (s : Settings) (a b : Monzo) : Except Fault Value := do
  requireUnits "subtract" a b
  if a.isFractional && b.isFractional then ratioResult s a b (a.ratio - b.ratio)
  else (a.toApprox.sub b.toApprox).map .real

/-! ## Products -/

/-- The product: exponents add. -/
def mul (s : Settings) (a b : Monzo) : Except Fault Monzo := do
  let (a, b) ← align s a b
  checked s {
    time := a.time + b.time
    exps := a.exps.zipWith (· + ·) b.exps
    residual := a.residual * b.residual
    cents := a.cents + b.cents }

/-- The quotient by a value that is not zero: exponents subtract. -/
def divNonzero (s : Settings) (a b : Monzo) : Except Fault Monzo := do
  let (a, b) ← align s a b
  checked s {
    time := a.time - b.time
    exps := a.exps.zipWith (· - ·) b.exps
    residual := a.residual / b.residual
    cents := a.cents - b.cents }

/-- The quotient; that by zero is real. -/
def div (s : Settings) (a b : Monzo) : Except Fault Value :=
  if b.residual = 0 then .ok (.real (a.toApprox.div b.toApprox))
  else (divNonzero s a b).map .exact

/-! ## Powers -/

/-- The power with an exponent that is taken as irrational. -/
def irrationalPow (s : Settings) (m : Monzo) (exponent : Float) : Except Fault Value :=
  if m.time ≠ 0 then .error .irrationalTimePower
  else (m.toApprox.pow s exponent).map .real

/-- Raising a residual to a power would exceed its bound. -/
def residualOverflows (s : Settings) (residual exponent : Rat) : Bool :=
  residual ≠ 0 && residual ≠ 1 && residual ≠ -1 &&
    decide ((s.absurdExponent : Rat) < Ratio.bits residual * exponent.abs)

/-- The power with a rational exponent, which is exact unless its denominator is too large. A
residual without an exact power moves into the real correction. -/
def powRatio (s : Settings) (m : Monzo) (exponent : Rat) : Except Fault Value :=
  if s.maxPowDenominator ≤ exponent.den then do
    let x ← (Number.ratio exponent).toDouble
    irrationalPow s m x
  else if residualOverflows s m.residual exponent then .error .residualBound
  else match Ratio.pow? m.residual exponent with
    | some residual => do
      let x ← (Number.ratio exponent).toDouble
      let power ← checked s {
        time := m.time * exponent
        exps := m.exps.map (· * exponent)
        residual
        cents := m.cents * x }
      .ok (.exact power)
    | none => do
      let x ← (Number.ratio exponent).toDouble
      if m.residual ≤ 0 then irrationalPow s m x
      else
        let power ← checked s {
          time := m.time * exponent
          exps := m.exps.map (· * exponent)
          cents := (m.cents + 1200 * Double.log2Ratio m.residual) * x }
        .ok (.exact power)

/-- The power with a plain number as exponent. -/
def powNumber (s : Settings) (m : Monzo) : Number → Except Fault Value
  | .integer n => powRatio s m n
  | .ratio q => powRatio s m q
  | .double x =>
    match Double.toRat? x with
    | some q => powRatio s m q
    | none => irrationalPow s m x

/-- The power with a scalar exponent. -/
def pow (s : Settings) (m : Monzo) (exponent : Value) : Except Fault Value :=
  if !exponent.isScalar then .error .nonScalarPower
  else match exponent with
    | .real a => irrationalPow s m a.value
    | .exact e => if e.isFractional then powRatio s m e.ratio else irrationalPow s m e.valueOf

end Intonation.Monzo
