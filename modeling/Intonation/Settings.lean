/-!
# Engine settings

The numeric bounds consulted whenever a value is built: how many primes a value tracks, how
large it may grow, and which roots are still taken exactly.
-/

namespace Intonation

/-- The bounds in force while values are built. -/
structure Settings where
  /-- How many primes a new value tracks. -/
  numberOfComponents : Nat := 9
  /-- The largest exponent of two; other primes scale by their size. -/
  absurdExponent : Nat := 3322
  /-- Powers whose exponent has at least this denominator are taken as irrational. -/
  maxPowDenominator : Nat := 10000
  deriving DecidableEq, Repr

namespace Settings

/-- The most primes that a value can track. -/
def maxComponents : Nat := 1000

/-- Settings whose basis fits the prime table and whose bounds are positive. -/
structure Valid (s : Settings) : Prop where
  components_pos : 1 ≤ s.numberOfComponents
  components_le : s.numberOfComponents ≤ maxComponents
  absurd_pos : 0 < s.absurdExponent
  pow_gt_one : 1 < s.maxPowDenominator

theorem valid_default : ({} : Settings).Valid := by
  constructor <;> decide

end Settings

end Intonation
