import Intonation.Double.Logarithm
import Intonation.Double.Text
import Intonation.Fault
import Intonation.Monzo.Text
import Intonation.Ratio.Approximation
import Intonation.Settings

/-!
# Real values

A real value is a double times a power of the time unit. It stands wherever exactness cannot be
kept, and answers the same questions as an exact value.

## Main definitions

* `Approx`: a real value
* `Approx.totalCents`, `Approx.text`: its size and its text
-/

namespace Intonation

/-- A double times a power of the time unit. -/
structure Approx where
  /-- The power of the time unit. -/
  time : Rat := 0
  /-- The magnitude, which may be infinite or no number. -/
  value : Float

namespace Approx

/-- A real value from a size in cents. -/
def ofCents (cents : Float) : Approx := { value := Double.centsToValue cents }

/-- A real frequency in hertz. -/
def ofFrequency (frequency : Float) : Approx := { time := -1, value := frequency }

/-- A value without time units. -/
def isScalar (a : Approx) : Bool := a.time = 0

/-- A finite value. -/
def isFinite (a : Approx) : Bool := a.value.isFinite

/-- The size of the magnitude in cents, ignoring time units. -/
def totalCents (a : Approx) : Float :=
  if a.value == 0 then -Double.infinity else 1200 * a.value.abs.log2

/-- A value as a number with its unit. -/
def linearText (a : Approx) : String :=
  if a.value.isFinite then Double.display a.value ++ "r" ++ unitSuffix a.time
  else Double.display a.value

/-- A value as it is written in a domain. -/
def text (a : Approx) : Domain → String
  | .linear => a.linearText
  | .logarithmic =>
    let cents := a.totalCents
    if cents.isFinite then Double.display cents ++ "rc" else Double.display cents
  | .cologarithmic =>
    let cents := a.totalCents
    if cents.isFinite then "<" ++ Double.display cents ++ "rc]" else Double.display cents

end Approx

end Intonation
