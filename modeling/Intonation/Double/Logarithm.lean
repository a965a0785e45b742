import Intonation.Double.Basic
import Intonation.Fault
import Intonation.Ratio.Root

/-!
# Sizes in cents

The size of a ratio in cents is twelve hundred times its binary logarithm. Numbers too large for
a double are scaled down by a power of two first, so that every ratio has a size.

## Main definitions

* `Double.Scaled`: a positive number of any size as a double times a power of two
* `Double.log2Ratio`, `Double.octaves`: the binary logarithm of the magnitude of a ratio
* `Double.centsToValue`, `Double.valueToCents`: sizes in cents and frequency ratios
-/

namespace Intonation.Double

/-- A number as `factor * 2 ^ octaves`. -/
structure Scaled where
  factor : Float
  octaves : Int
  deriving BEq

namespace Scaled

/-- A large number with a factor from one half up to one, rounded to a double. -/
def ofLarge (n : Nat) : Scaled :=
  let length := Ratio.bitLength n
  let mantissa := roundDiv (n <<< 53) (1 <<< length)
  if mantissa = 1 <<< 53 then ⟨0.5, length + 1⟩
  else ⟨(ofRat? (mkRat mantissa (1 <<< 53))).getD 0, length⟩

/-- A natural number as a double, scaled down only if it is too large for one. -/
def ofNat (n : Nat) : Scaled :=
  match ofRat? n with
  | some x => ⟨x, 0⟩
  | none => ofLarge n

/-- The binary logarithm of a number. -/
def log2 (x : Scaled) : Float := x.factor.log2 + Float.ofInt x.octaves

end Scaled

/-- The binary logarithm of the magnitude of a ratio, which is zero when its terms round to the
same double. -/
def log2Ratio (q : Rat) : Float :=
  let num := Scaled.ofNat q.num.natAbs
  let den := Scaled.ofNat q.den
  if num == den then 0 else num.log2 - den.log2

/-- The binary logarithm of the magnitude of a ratio, which must not be zero. -/
def octaves (q : Rat) : Except Fault Float :=
  if q = 0 then .error .undefinedLogarithm else .ok (log2Ratio q)

/-- The frequency ratio of a size in cents, saturating to infinity; no cents give unity. -/
def centsToValue (cents : Float) : Float :=
  if cents == 0 then 1 else (2 : Float).pow (cents / 1200)

/-- The size in cents of a frequency ratio, which must not be zero or negative. -/
def valueToCents (value : Float) : Except Fault Float :=
  if value ≤ 0 then .error .undefinedLogarithm else .ok (1200 * value.log2)

end Intonation.Double
