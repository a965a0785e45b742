import Intonation.Value.Arithmetic
import Intonation.Value.Order

/-!
# Exact logarithms

The logarithm of a value in a base is exact when both are powers of a common base. A negative
value in a negative base is taken by the magnitudes.

## Main definitions

* `Monzo.exponentQuotient?`: the factor between two proportional vectors
* `Monzo.log`: the logarithm of one value in the base of another
-/

namespace Intonation.Monzo

/-- The factor by which the second vector has to be scaled to give the first. -/
def exponentQuotient? (as bs : List Rat) : Option Rat :=
  match (as.zip bs).find? fun (_, b) => b ≠ 0 with
  | none => none
  | some (a, b) => if (as.zip bs).all fun (x, y) => x = a / b * y then some (a / b) else none

/-- The number of primes that factors two residuals completely, or none at all. -/
def commonLimit (a b : Monzo) : Nat :=
  if a.residual.abs = 1 ∧ b.residual.abs = 1 then 0
  else match primeLimit a.residual, primeLimit b.residual with
    | .ok m, .ok n => max m n
    | _, _ => 0

/-- The exact exponent between two positive values without time units and corrections. -/
def solve (s : Settings) (a b : Monzo) : Except Fault (Option Rat) := do
  let limit := commonLimit a b
  let a ← if max a.components b.components < limit then resize s a limit else .ok a
  let (a, b) ← align s a b
  match exponentQuotient? a.exps b.exps with
  | none => .ok none
  | some x => .ok (if Ratio.pow? b.residual x = some a.residual then some x else none)

/-- The real logarithm. -/
def realLog (a b : Monzo) : Except Fault Value := (a.toApprox.log b.toApprox).map .real

/-- The logarithm of a value with time units, which must be an exact power of the base. -/
def timeLog (s : Settings) (a b : Monzo) : Except Fault Value :=
  if b.time = 0 then .error .timeLogarithm
  else do
    let power ← b.powRatio s (a.time / b.time)
    if ← power.strictEquals s (.exact a) then (ofRatio s (a.time / b.time)).map .exact
    else .error (.noLogarithm a.linearText b.linearText)

/-- The logarithm of scalars without corrections. -/
def scalarLog (s : Settings) (a b : Monzo) : Except Fault Value := do
  let solution ←
    if a.residual < 0 ∧ b.residual < 0 then do
      let a' ← a.neg s
      let b' ← b.neg s
      solve s a' b'
    else if a.residual ≤ 0 ∨ b.residual ≤ 0 then .ok none
    else solve s a b
  match solution with
  | some x => (ofRatio s x).map .exact
  | none => realLog a b

/-- The logarithm of one value in the base of another. -/
def log (s : Settings) (a b : Monzo) : Except Fault Value :=
  if !a.isUncorrected || !b.isUncorrected then realLog a b
  else if a.time ≠ 0 ∨ b.time ≠ 0 then timeLog s a b
  else scalarLog s a b

end Intonation.Monzo
