import Intonation.Monzo.Basis

/-!
# Common divisors and multiples

The greatest common divisor of two values takes the smaller of each pair of exponents, the least
common multiple the larger.

## Main definitions

* `Ratio.gcd`, `Ratio.lcm`: divisors and multiples of ratios
* `Monzo.gcd`, `Monzo.lcm`: divisors and multiples of values
-/

namespace Intonation

/-- The largest ratio of which both ratios are whole multiples. -/
def Ratio.gcd (x y : Rat) : Rat := mkRat (x.num.gcd y.num) (x.den.lcm y.den)

/-- The smallest ratio that is a whole multiple of both ratios. -/
def Ratio.lcm (x y : Rat) : Rat := mkRat (x.num.lcm y.num) (x.den.gcd y.den)

/-- The smaller of two ratios. -/
def Ratio.least (x y : Rat) : Rat := if y < x then y else x

/-- The larger of two ratios. -/
def Ratio.greatest (x y : Rat) : Rat := if x < y then y else x

/-- The smaller of two doubles, the first one on a tie. -/
def Double.least (x y : Float) : Float := if y < x then y else x

/-- The larger of two doubles, the first one on a tie. -/
def Double.greatest (x y : Float) : Float := if x < y then y else x

namespace Monzo

/-- The largest value that divides both. -/
def gcd (s : Settings) (a b : Monzo) : Except Fault Monzo := do
  let (a, b) ← align s a b
  checked s {
    time := Ratio.least a.time b.time
    exps := a.exps.zipWith Ratio.least b.exps
    residual := Ratio.gcd a.residual b.residual
    cents := Double.least a.cents b.cents }

/-- The smallest value that both divide. -/
def lcm (s : Settings) (a b : Monzo) : Except Fault Monzo := do
  let (a, b) ← align s a b
  checked s {
    time := Ratio.greatest a.time b.time
    exps := a.exps.zipWith Ratio.greatest b.exps
    residual := Ratio.lcm a.residual b.residual
    cents := Double.greatest a.cents b.cents }

end Monzo

end Intonation
