import Intonation.Double.Basic
import Intonation.Prime.Table
import Intonation.Ratio.Octaves

/-!
# Sizes of primes

Logarithmic sizes are measured against the sizes of the primes of the table. A prime is measured
in octaves first, to the nearest double, and then in cents.

## Main definitions

* `cents`: the size of a prime in cents
* `measures`: the primes of the table with their sizes
-/

namespace Intonation.Prime

/-- The size of a prime in cents. -/
def cents (p : Nat) : Float := 1200 * Double.nearest (Ratio.octaves p)

/-- Every prime of the table with its size in cents. -/
def measures : List (Nat × Float) := table.map fun p => (p, cents p)

/-- The size of the octave in cents. -/
def octaveCents : Float := cents 2

/-- The size of the tritave in cents. -/
def tritaveCents : Float := cents 3

end Intonation.Prime
