import Intonation.FJS.Comma
import Intonation.FJS.Skeleton

/-!
# Inflecting by commas

Superscripts raise a Pythagorean interval by the commas of their primes, and subscripts lower it
by them. A value whose other primes have whole exponents splits into commas and a Pythagorean
interval, which may then have a name.

## Main definitions

* `inflection`, `inflect`: the product of commas, and its application
* `uninflect`: splits a value into a Pythagorean interval and inflections
* `spellInterval`, `spellPitch`: a value as a named interval or pitch
-/

namespace Intonation

/-- Applies the commas of the primes at hand, each to its exponent. -/
def applyCommas (s : Settings) (flavor : String)
    (apply : Value → Value → Except Fault Value) : List (Nat × Int) → Value → Memoized Value
  | [], v => return v
  | (prime, exponent) :: rest, v =>
    if exponent = 0 then applyCommas s flavor apply rest v
    else do
      let c ← comma s { prime, flavor := some flavor }
      let power ← Memoized.ofExcept (c.powRatio s exponent)
      let v ← Memoized.ofExcept (apply v power)
      applyCommas s flavor apply rest v

/-- Applies a row of inflections in turn. -/
def applyInflections (s : Settings) (apply : Value → Value → Except Fault Value) :
    List Inflection → Value → Memoized Value
  | [], v => return v
  | i :: rest, v => do
    let exponents ← Memoized.ofExcept (Monzo.factorCompletely i.number)
    let v ← applyCommas s i.flavor apply (Prime.table.zip exponents) v
    applyInflections s apply rest v

/-- The product of the commas of the superscripts over those of the subscripts. -/
def inflection (s : Settings) (superscripts subscripts : List Inflection) : Memoized Value := do
  let one ← Memoized.ofExcept (Monzo.unity s 2)
  let raised ← applyInflections s (Value.mul s) superscripts (.exact one)
  applyInflections s (Value.div s) subscripts raised

/-- A value moved by comma inflections. -/
def inflect (s : Settings) (v : Value) (superscripts subscripts : List Inflection) :
    Memoized Value := do
  let commas ← inflection s superscripts subscripts
  Memoized.ofExcept (v.mul s commas)

/-- A Pythagorean interval with the inflections that were split off. -/
structure Uninflected where
  base : Value
  superscripts : List Inflection
  subscripts : List Inflection

/-- The inflections that stand for a row of exponents, those of positive exponents first. -/
def inflectionsOf (flavor : String) :
    List Nat → List Rat → Except Fault (List Inflection × List Inflection)
  | _, [] => .ok ([], [])
  | [], _ :: _ => .error .componentBeyondTable
  | p :: primes, e :: es => do
    let (up, down) ← inflectionsOf flavor primes es
    let row := List.replicate e.num.natAbs (Inflection.mk p flavor)
    .ok (if 0 < e.num then (row ++ up, down) else (up, row ++ down))

/-- Splits a value into a Pythagorean interval and comma inflections. -/
def uninflect (s : Settings) (m : Monzo) (flavor : String) : Memoized Uninflected := do
  let vector ← Memoized.ofExcept (m.folded s)
  let (superscripts, subscripts) ←
    Memoized.ofExcept (inflectionsOf flavor (Prime.table.drop 2) (vector.exps.drop 2))
  let commas ← inflection s superscripts subscripts
  let base ← Memoized.ofExcept ((Value.exact m).div s commas)
  return { base, superscripts, subscripts }

/-- A positive scalar without correction whose exponents beyond three are whole. -/
def isSpellable (m : Monzo) : Bool :=
  m.isUncorrected && m.isScalar && 0 < m.residual && (m.exps.drop 2).all fun e => e.den = 1

/-- An arithmetic failure on the way to a spelling means that there is none. -/
def Memoized.giveUp {α : Type} (spelling : Memoized (Option α)) : Memoized (Option α) :=
  tryCatch spelling fun fault => if fault.isArithmetic then return none else throw fault

/-- The Pythagorean interval of a value and its inflections, when nothing else is left. -/
def skeletonOf (s : Settings) (m : Monzo) (flavor : String) :
    Memoized (Option (Monzo × Inflections)) :=
  if isSpellable m then do
    match ← Memoized.giveUp (some <$> uninflect s m flavor) with
    | some { base := .exact base, superscripts, subscripts } =>
      if Monzo.isFlat (base.exps.drop 2) && base.residual = 1 then
        return some (base, { superscripts, subscripts })
      else return none
    | _ => return none
  else return none

/-- A value as a named interval, if it has a name. -/
def spellInterval (s : Settings) (m : Monzo) (flavor : String) :
    Memoized (Option (Pythagorean × Inflections)) := do
  match ← skeletonOf s m flavor with
  | none => return none
  | some (base, inflections) =>
    match ← Memoized.ofExcept (Pythagorean.ofMonzo base) with
    | none => return none
    | some name =>
      let inflections ← Memoized.ofExcept inflections.make
      return some (name, inflections)

/-- A value relative to C4 as a named pitch, if it has a name. -/
def spellPitch (s : Settings) (m : Monzo) (flavor : String) :
    Memoized (Option (Pitch × Inflections)) := do
  match ← skeletonOf s m flavor with
  | none => return none
  | some (base, inflections) =>
    match ← Memoized.ofExcept (Pitch.ofMonzo base) with
    | none => return none
    | some name =>
      let inflections ← Memoized.ofExcept inflections.make
      return some (name, inflections)

end Intonation
