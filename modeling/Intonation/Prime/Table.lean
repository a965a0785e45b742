import Intonation.Prime.Sieve

/-!
# The prime table

Exponent vectors index their components by position in the table of the first thousand primes.
-/

namespace Intonation.Prime

/-- The largest prime of the table. -/
def tableLimit : Nat := 7919

/-- The first thousand primes. -/
def table : List Nat := primesUpTo tableLimit

/-- The number of primes in the table. -/
def tableSize : Nat := 1000

/-- The position of a number in the table. -/
def index? (n : Int) : Option Nat := table.findIdx? fun (p : Nat) => (p : Int) == n

end Intonation.Prime
