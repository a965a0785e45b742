import Intonation.Monzo.Basic

/-!
# Equal temperament

A rational power of a ratio has a canonical form: a fraction of an equave, where the equave
exceeds one and is no power of a smaller ratio.

## Main definitions

* `Monzo.temperament`: the fraction and the equave of a vector of exponents
* `Monzo.toTemperament`: the same for a value, unless it is no such power
-/

namespace Intonation.Monzo

/-- The least common denominator of the exponents. -/
def commonDenominator (exps : List Rat) : Nat := exps.foldl (fun l e => l.lcm e.den) 1

/-- The exponents over their common denominator. -/
def scaledExponents (exps : List Rat) : List Int :=
  exps.map fun e => (e * (commonDenominator exps : Rat)).num

/-- The greatest common divisor of whole exponents. -/
def commonDivisor (components : List Int) : Nat := components.foldl (fun g c => g.gcd c.natAbs) 0

/-- The fraction and the equave of a vector of exponents; nothing is zero steps of unity. -/
def temperament (exps : List Rat) : Rat × Rat :=
  if isFlat exps then (0, 1)
  else
    let scaled := scaledExponents exps
    let divisor := commonDivisor scaled
    let equave := primeProduct Prime.table (scaled.map fun c => ((c / divisor : Int) : Rat))
    let fraction := mkRat divisor (commonDenominator exps)
    if equave < 1 then (-fraction, equave⁻¹) else (fraction, equave)

/-- The fraction and the equave of a rational power of a ratio. -/
def toTemperament (m : Monzo) : Except Fault (Rat × Rat) :=
  if m.isEqualTemperament then .ok (temperament m.exps) else .error .irrational

end Intonation.Monzo
