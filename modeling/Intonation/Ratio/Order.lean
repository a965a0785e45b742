import Intonation.Fault
import Intonation.Ratio.Root

/-!
# Roots of any order

A root is taken of a positive order. Zero and the units are their own roots whatever the order,
negative numbers have no root of an even one, and all other roots of an order that is not
positive fail: the search for them would divide by zero or start from no number at all.

## Main definitions

* `Ratio.rootOfOrder`: the exact root of an integer
-/

namespace Intonation.Ratio

/-- The exact root of an integer of a given order. -/
def rootOfOrder (n order : Int) : Except Fault (Option Int) :=
  if 0 < order then .ok (integerRoot? n order.toNat)
  else if n < 0 ∧ order % 2 = 0 then .ok none
  else if n.natAbs < 2 then .ok (some n)
  else if order < 0 ∧ 0 < bitLength n.natAbs + order - 1 then .error .notNumeric
  else .error .zeroDivisor

end Intonation.Ratio
