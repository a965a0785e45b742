import Intonation.Prime.Table

/-!
# Factoring ratios

A nonzero ratio splits into exponents of the first primes and a residual ratio that none of
them divides.

## Main definitions

* `strip`: divides a prime out of a number as often as it goes
* `split`: the exponents of given primes in a ratio, and the residual
* `limit?`: how many primes of the table a complete factorisation needs
-/

namespace Intonation.Prime

/-- Divides `p` out of `n` as often as it goes; the second component counts the divisions. The
square of `p` goes first, so that at most one division by `p` itself is left. -/
def strip (p n : Nat) : Nat × Nat :=
  if h : 2 ≤ p ∧ 0 < n ∧ n % p = 0 then
    let rest := strip (p * p) n
    if rest.1 % p = 0 then (rest.1 / p, 2 * rest.2 + 1) else (rest.1, 2 * rest.2)
  else (n, 0)
  termination_by n + 1 - p
  decreasing_by
    have := Nat.mul_le_mul_left p h.1
    have := Nat.le_of_dvd h.2.1 (Nat.dvd_of_mod_eq_zero h.2.2)
    omega

/-- Divides the primes out of a positive numerator and denominator in turn, stopping early when
nothing is left to divide. -/
def splitParts : List Nat → Nat → Nat → List Int × Nat × Nat
  | [], num, den => ([], num, den)
  | p :: ps, num, den =>
    if num = 1 ∧ den = 1 then ((p :: ps).map fun _ => 0, 1, 1)
    else
      let up := strip p num
      let down := strip p den
      let rest := splitParts ps up.1 down.1
      (((up.2 : Int) - down.2) :: rest.1, rest.2)

/-- The exponents of `primes` in a ratio and the ratio that remains, which keeps the sign.
Zero has no exponents and stays whole. -/
def split (primes : List Nat) (q : Rat) : List Int × Rat :=
  if q = 0 then (primes.map fun _ => 0, 0)
  else
    let parts := splitParts primes q.num.natAbs q.den
    let residual := mkRat parts.2.1 parts.2.2
    (parts.1, if q < 0 then -residual else residual)

/-- The position after the last prime that divides the numerator or denominator, counting from
`index`, or `none` when the primes do not exhaust both. -/
def limitFrom : List Nat → Nat → Nat → Nat → Nat → Option Nat
  | [], _, limit, num, den => if num = 1 ∧ den = 1 then some limit else none
  | p :: ps, index, limit, num, den =>
    if num = 1 ∧ den = 1 then some limit
    else
      let up := strip p num
      let down := strip p den
      limitFrom ps (index + 1) (if 0 < up.2 + down.2 then index + 1 else limit) up.1 down.1

/-- The number of components needed to factor a nonzero ratio completely over the table. -/
def limit? (q : Rat) : Option Nat := limitFrom table 0 0 q.num.natAbs q.den

end Intonation.Prime
