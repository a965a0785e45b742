/-!
# Best rational approximations

The ratio closest to a given one among those with a bounded denominator is a convergent or a
semiconvergent of its continued fraction.

## Main definitions

* `Ratio.approximate`: the closest ratio with a bounded denominator
-/

namespace Intonation.Ratio

/-- Two neighbouring convergents of a continued fraction. -/
structure Convergents where
  earlierNum : Int := 0
  earlierDen : Nat := 1
  laterNum : Int := 1
  laterDen : Nat := 0

namespace Convergents

/-- The convergents after the next partial quotient. -/
def next (c : Convergents) (quotient : Int) : Convergents where
  earlierNum := c.laterNum
  earlierDen := c.laterDen
  laterNum := c.earlierNum + quotient * c.laterNum
  laterDen := (c.earlierDen + quotient * c.laterDen : Int).toNat

/-- The last convergents of `n / d` whose denominators do not exceed `bound`. -/
def upTo (bound : Nat) (c : Convergents) (n : Int) (d : Nat) : Convergents :=
  if _h : 0 < d then
    let following := c.next (n / d)
    if bound < following.laterDen then c
    else following.upTo bound d (n % d).toNat
  else c
  termination_by d
  decreasing_by
    have := Int.emod_lt_of_pos n (b := (d : Int)) (by omega)
    have := Int.emod_nonneg n (b := (d : Int)) (by omega)
    omega

end Convergents

/-- The closest ratio to `q` whose denominator does not exceed `bound`; of two equally close
ones the convergent. -/
def approximate (q : Rat) (bound : Nat) : Rat :=
  if q.den ≤ bound then q
  else
    let c := Convergents.upTo bound {} q.num q.den
    let steps := (bound - c.earlierDen) / c.laterDen
    let semiconvergent := mkRat (c.earlierNum + steps * c.laterNum) (c.earlierDen + steps * c.laterDen)
    let convergent := mkRat c.laterNum c.laterDen
    if (convergent - q).abs ≤ (semiconvergent - q).abs then convergent else semiconvergent

end Intonation.Ratio
