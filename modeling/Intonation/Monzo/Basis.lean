import Intonation.Monzo.Basic

/-!
# Changing the basis

A monzo tracks the first few primes. Growing the basis factors the residual further; shrinking
it moves whole exponents into the residual and fractional ones into the real correction.

## Main definitions

* `Monzo.resize`: the same value over another number of primes
* `Monzo.align`: two values over a common number of primes
* `Monzo.folded`: the same value without a residual
* `Monzo.exponentOf`, `Monzo.toSubgroup`: exponents of given primes
-/

namespace Intonation.Monzo

/-- What dropped components leave: a factor of the residual and a real correction. -/
structure Leftover where
  residual : Rat
  cents : Float

/-- Moves dropped exponents into the leftover, from the last prime to the first. -/
def dropInto : List (Nat × Float) → List Rat → Leftover → Except Fault Leftover
  | _, [], rest => .ok rest
  | [], _ :: _, _ => .error .componentBeyondTable
  | (p, size) :: primes, e :: es, rest => do
    let rest ← dropInto primes es rest
    if e.den = 1 then .ok { rest with residual := rest.residual * (p : Rat) ^ e.num }
    else .ok { rest with cents := rest.cents + size * Double.nearest e }

/-- The same value over fewer primes. -/
def shrink (s : Settings) (m : Monzo) (count : Nat) : Except Fault Monzo := do
  let rest ← dropInto (Prime.measures.drop count) (m.exps.drop count) ⟨m.residual, m.cents⟩
  checked s { m with exps := m.exps.take count, residual := rest.residual, cents := rest.cents }

/-- Adds whole exponents to the exponents at hand; missing exponents count as zero. -/
def addExponents : List Rat → List Int → List Rat
  | es, [] => es
  | [], up :: ups => (up : Rat) :: addExponents [] ups
  | e :: es, up :: ups => (e + up) :: addExponents es ups

/-- The same value over more primes. -/
def grow (s : Settings) (m : Monzo) (count : Nat) : Except Fault Monzo := do
  let parts ← factor count m.residual
  checked s { m with exps := addExponents m.exps parts.1, residual := parts.2 }

/-- The same value over the given number of primes. -/
def resize (s : Settings) (m : Monzo) (count : Nat) : Except Fault Monzo :=
  if count < m.components then shrink s m count
  else if m.components < count then grow s m count
  else checked s m

/-- The same value over the given number of primes, which must not be negative. -/
def resizeTo (s : Settings) (m : Monzo) (count : Int) : Except Fault Monzo :=
  if count < 0 then .error .componentBeyondTable else resize s m count.toNat

/-- The same value over at least the given number of primes. -/
def widen (s : Settings) (m : Monzo) (count : Nat) : Except Fault Monzo :=
  if m.components < count then grow s m count else .ok m

/-- Two values over the larger of their numbers of primes. -/
def align (s : Settings) (a b : Monzo) : Except Fault (Monzo × Monzo) := do
  let a' ← widen s a b.components
  let b' ← widen s b a.components
  .ok (a', b')

/-- The number of primes that factor a ratio completely. -/
def primeLimit (q : Rat) : Except Fault Nat :=
  if q = 0 then .error .zeroFactorization
  else match Prime.limit? q with
    | some limit => .ok limit
    | none => .error (.primeBeyondTable q.abs)

/-- The exponents of a positive ratio over all the primes that it needs. -/
def factorCompletely (q : Rat) : Except Fault (List Int) := do
  let limit ← primeLimit q
  let parts ← factor limit q
  if parts.2 = 1 then .ok parts.1 else .error (.unfactored q)

/-- The same value with the residual moved into the exponents. -/
def folded (s : Settings) (m : Monzo) : Except Fault Monzo :=
  if m.residual = 1 then .ok m
  else match primeLimit m.residual with
    | .error _ => .error .residualDot
    | .ok limit => do
      let result ← resize s m (max limit m.components)
      if result.residual = 1 then .ok result else .error .residualDot

/-- The exponent of a prime of the table, looked up in the residual if need be. -/
def exponentOf (m : Monzo) (prime : Int) : Except Fault Rat :=
  match Prime.index? prime with
  | none => .error .notInTable
  | some index =>
    match m.exps[index]? with
    | some e => .ok e
    | none => do
      let parts ← factor (index + 1) m.residual
      .ok (parts.1.getD index 0 : Int)

/-- The exponents over a list of primes that hold the whole value. -/
def toSubgroup (s : Settings) (m : Monzo) (basis : List Int) : Except Fault (List Rat) := do
  match basis.find? fun p => (Prime.index? p).isNone with
  | some element => .error (.compositeBasis element)
  | none =>
    let limit := (basis.map fun p => (Prime.index? p).getD 0 + 1).foldl max 0
    let wide ← resize s m (max limit m.components)
    if wide.residual ≠ 1 || !wide.isUncorrected then .error .irrational
    else if (Prime.table.zip wide.exps).all fun ((p : Nat), e) => e = 0 || basis.contains (p : Int) then
      basis.mapM wide.exponentOf
    else .error .irrational

end Intonation.Monzo
