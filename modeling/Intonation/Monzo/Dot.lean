import Intonation.Monzo.Basis
import Intonation.Monzo.Text
import Intonation.Ratio.Approximation
import Intonation.Value.Basic

/-!
# Pairing exponents

The dot product pairs an exponent vector with a dual vector. Components missing from the shorter
one count as zero, and real corrections pair with each other.

## Main definitions

* `Monzo.pairing`: the sum of the products of paired exponents
* `Monzo.dot`: the dot product
* `Monzo.geometricInverse`: the vector in the same direction that pairs to one
-/

namespace Intonation.Monzo

/-- The sum of the products of paired exponents. -/
def pairing : List Rat → List Rat → Rat
  | a :: as, b :: bs => a * b + pairing as bs
  | _, _ => 0

/-- The largest denominator of the product of two real corrections. -/
def correctionDenominator : Nat := 100000000

/-- The product of two real corrections as a ratio. -/
def correctionProduct (x y : Float) : Except Fault Rat :=
  if x == 0 || y == 0 then .ok 0
  else (Number.toRat (.double (x * y))).map fun q => Ratio.approximate q correctionDenominator

/-- The dot product of two vectors whose residuals can be factored. -/
def dot (s : Settings) (a b : Monzo) : Except Fault Rat := do
  let a ← a.folded s
  let b ← b.folded s
  let correction ← correctionProduct a.cents b.cents
  .ok (a.time * b.time + pairing a.exps b.exps + correction)

/-- The vector in the same direction whose dot product with the value is one. -/
def geometricInverse (s : Settings) (m : Monzo) : Except Fault Monzo := do
  let magnitude ← m.dot s m
  if magnitude = 0 then .error (.noGeometricInverse m.linearText)
  else
    let vector ← m.folded s
    let scale := magnitude⁻¹
    let x ← (Number.ratio scale).toDouble
    checked s {
      time := vector.time * scale
      exps := vector.exps.map (· * scale)
      cents := vector.cents * x }

end Intonation.Monzo
