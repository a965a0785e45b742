import Intonation.Ratio.Root

/-!
# Sieving primes

Every number up to a limit has a flag, which is set for all but zero and one at first. Each number
in turn that still has its flag clears the flags of its multiples, from its square on. After the
turn of the square root of the limit, rounded down, the numbers with flags are the primes.

## Main definitions

* `candidates`: the flags at first
* `clearEvery`: clears the flags at regular distances
* `crossOut`: the turn of a number
* `sieve`: the flags after all turns
* `primesUpTo`: the primes not exceeding a limit, in ascending order
-/

namespace Intonation.Prime

/-- The flags of the numbers up to `limit`, set for all but zero and one. -/
def candidates (limit : Nat) : List Bool := false :: false :: List.replicate (limit - 1) true

/-- Skips some flags, clears the next one and every `step`-th flag from there on. -/
def clearEvery (step : Nat) : List Bool → Nat → List Bool
  | [], _ => []
  | _ :: flags, 0 => false :: clearEvery step flags (step - 1)
  | flag :: flags, skip + 1 => flag :: clearEvery step flags skip

/-- The turn of `n`: if it has its flag, its multiples from its square on lose theirs. -/
def crossOut (flags : List Bool) (n : Nat) : List Bool :=
  if flags[n]? = some true then clearEvery n flags (n * n) else flags

/-- The flags after the turns of all numbers up to the square root of `limit`, rounded down. -/
def sieve (limit : Nat) : List Bool :=
  (List.range' 2 (Ratio.floorRoot limit 2 - 1)).foldl crossOut (candidates limit)

/-- The primes not exceeding `limit`, in ascending order. -/
def primesUpTo (limit : Nat) : List Nat := ((sieve limit).zipIdx.filter (·.1)).map (·.2)

end Intonation.Prime
