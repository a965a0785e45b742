import Intonation.Double.Logarithm
import Intonation.Fault
import Intonation.Prime.Size
import Intonation.Ratio.Decimal
import Intonation.Settings

/-!
# Exact values

A monzo is a power of the time unit times a product of prime powers with rational exponents, a
residual ratio for the primes beyond the tracked ones and for the sign, and a real correction in
cents. The correction is nonzero only once something irrational has been folded in; from then on
the value is no ratio.

Every monzo is built within the bounds of the settings in force.

## Main definitions

* `Monzo`: an exact value
* `Monzo.boundsFault?`, `Monzo.checked`: the bounds on exponents, residual and correction
* `Monzo.ofRatio`, `Monzo.unity`, `Monzo.ofCents`, `Monzo.ofFrequency`: construction
* `Monzo.ratio`, `Monzo.toRatio`: the ratio that a monzo denotes
* `Monzo.totalCents`, `Monzo.valueOf`: its size and nearest double
-/

namespace Intonation

/-- An exact value: `time unit ^ time * 2 ^ exps[0] * 3 ^ exps[1] * ⋯ * residual * 2 ^ (cents / 1200)`. -/
structure Monzo where
  /-- The power of the time unit, negative for frequencies. -/
  time : Rat := 0
  /-- The exponents of the tracked primes, in ascending order of the primes. -/
  exps : List Rat
  /-- The ratio of what the tracked primes leave, with the sign. -/
  residual : Rat := 1
  /-- The real correction. -/
  cents : Float := 0

namespace Monzo

/-! ## Bounds -/

/-- The largest size in cents that a component may contribute. -/
def centsBound (s : Settings) : Rat := (s.absurdExponent * 1200 : Nat)

/-- The first exponent whose contribution exceeds the bound, or that belongs to no prime. -/
def exponentFault? (bound : Rat) : List (Nat × Float) → List Rat → Option Fault
  | _, [] => none
  | [], e :: es => if e = 0 then exponentFault? bound [] es else some .componentBeyondTable
  | (p, size) :: primes, e :: es =>
    if e = 0 then exponentFault? bound primes es
    else match Double.ofRat? e.abs with
      | none => some .tooLarge
      | some x =>
        if Double.exceeds (x * size) bound then some (.exponentBound p e)
        else exponentFault? bound primes es

/-- The first bound that a monzo exceeds. -/
def boundsFault? (s : Settings) (m : Monzo) : Option Fault :=
  if m.cents.isNaN then some .invalidCents
  else match exponentFault? (centsBound s) Prime.measures m.exps with
    | some fault => some fault
    | none =>
      if s.absurdExponent < Ratio.bits m.residual then some .residualBound
      else if Double.exceeds m.cents.abs (centsBound s) then some .magnitudeBound
      else none

/-- A monzo within the bounds. -/
def checked (s : Settings) (m : Monzo) : Except Fault Monzo :=
  match boundsFault? s m with
  | some fault => .error fault
  | none => .ok m

theorem checked_eq_ok_iff {s : Settings} {m n : Monzo} :
    checked s m = .ok n ↔ boundsFault? s m = none ∧ n = m := by
  unfold checked
  cases boundsFault? s m <;> simp [eq_comm]

/-! ## Construction -/

/-- The first primes of the table, as many as asked for. -/
def basis (count : Nat) : Except Fault (List Nat) :=
  if Prime.tableSize < count then .error .tableExhausted else .ok (Prime.table.take count)

/-- The exponents of the first primes in a ratio, and the residual. -/
def factor (count : Nat) (q : Rat) : Except Fault (List Int × Rat) :=
  (basis count).map fun primes => Prime.split primes q

/-- The exact value of a ratio over the first primes. -/
def ofRatioOver (s : Settings) (count : Nat) (q : Rat) : Except Fault Monzo := do
  let parts ← factor count q
  checked s { exps := parts.1.map fun (e : Int) => (e : Rat), residual := parts.2 }

/-- The exact value of a ratio over the primes that the settings track. -/
def ofRatio (s : Settings) (q : Rat) : Except Fault Monzo := ofRatioOver s s.numberOfComponents q

/-- The multiplicative identity over the first primes. -/
def unity (s : Settings) (count : Nat) : Except Fault Monzo :=
  checked s { exps := List.replicate count 0 }

/-- A scalar consisting only of a real correction. -/
def ofCents (s : Settings) (count : Nat) (cents : Float) : Except Fault Monzo :=
  checked s { exps := List.replicate count 0, cents }

/-- A frequency in hertz over the first primes. -/
def ofFrequencyOver (s : Settings) (count : Nat) (q : Rat) : Except Fault Monzo := do
  let base ← ofRatioOver s count q
  checked s { time := -1, exps := base.exps, residual := base.residual }

/-- A frequency in hertz over the primes that the settings track. -/
def ofFrequency (s : Settings) (q : Rat) : Except Fault Monzo :=
  ofFrequencyOver s s.numberOfComponents q

/-- A fraction of an equave: the equave raised to a rational power, with a real correction when
the power of the residual is irrational. -/
def ofTemperament (s : Settings) (count : Nat) (fraction equave : Rat) : Except Fault Monzo := do
  let base ← ofRatioOver s count equave
  let exps := base.exps.map (· * fraction)
  match Ratio.pow? base.residual fraction with
  | some residual => checked s { exps, residual }
  | none =>
    if base.residual = 0 then .error .undefinedLogarithm
    else match Double.ofRat? fraction with
      | none => .error .tooLarge
      | some x => checked s { exps, cents := 1200 * Double.log2Ratio base.residual * x }

/-! ## Queries -/

/-- How many primes a value tracks. -/
def components (m : Monzo) : Nat := m.exps.length

/-- A value without time units. -/
def isScalar (m : Monzo) : Bool := m.time = 0

/-- A value without a real correction. -/
def isUncorrected (m : Monzo) : Bool := m.cents == 0

/-- A ratio, up to time units. -/
def isFractional (m : Monzo) : Bool := m.isUncorrected && m.exps.all fun e => e.den = 1

/-- An integer, up to time units. -/
def isIntegral (m : Monzo) : Bool :=
  m.isFractional && m.residual.den = 1 && m.exps.all fun e => 0 ≤ e

/-- Only two and five have negative exponents. -/
def hasDecimalExponents (exps : List Rat) : Bool :=
  (Prime.table.zip exps).all fun (p, e) => 0 ≤ e || p = 2 || p = 5

/-- A terminating decimal, up to time units. -/
def isDecimal (m : Monzo) : Bool :=
  m.isFractional && Ratio.isDecimal m.residual && hasDecimalExponents m.exps

/-- A rational power of a ratio over the tracked primes. -/
def isEqualTemperament (m : Monzo) : Bool := m.isScalar && m.isUncorrected && m.residual = 1

/-- Every exponent is zero. -/
def isFlat (exps : List Rat) : Bool := exps.all (· = 0)

/-- A rational power of two. -/
def isPowerOfTwo (m : Monzo) : Bool := m.isEqualTemperament && isFlat (m.exps.drop 1)

/-- The multiplicative identity. -/
def isUnity (m : Monzo) : Bool := m.isEqualTemperament && isFlat m.exps

/-- The first exponent, or zero when no prime is tracked. -/
def firstExponent (m : Monzo) : Rat := m.exps.headD 0

/-! ## Conversion -/

/-- The product of primes raised to whole exponents. -/
def primeProduct : List Nat → List Rat → Rat
  | p :: primes, e :: es =>
    if e = 0 then primeProduct primes es else (p : Rat) ^ e.num * primeProduct primes es
  | _, _ => 1

/-- The ratio that a fractional monzo denotes, up to time units. -/
def ratio (m : Monzo) : Rat := m.residual * primeProduct Prime.table m.exps

/-- The ratio that a monzo denotes, unless it is irrational. -/
def toRatio (m : Monzo) : Except Fault Rat :=
  if m.isFractional then .ok m.ratio else .error .irrational

/-- The integer that a monzo denotes. -/
def toInteger (m : Monzo) : Except Fault Int := do
  let q ← m.toRatio
  if q.den = 1 then .ok q.num else .error (.notInteger (Ratio.text q))

/-- The exponents of a completely factored ratio. -/
def toIntegerExponents (m : Monzo) : Except Fault (List Int) :=
  if m.isFractional && m.residual = 1 then .ok (m.exps.map Rat.num) else .error .irrational

/-- Adds the sizes of prime powers to a size in cents, from the first prime on. -/
def addSizes : List (Nat × Float) → List Rat → Float → Float
  | (_, size) :: primes, e :: es, total =>
    if e = 0 then addSizes primes es total
    else addSizes primes es (total + Double.nearest e * size)
  | _, _, total => total

/-- The size of the magnitude in cents, ignoring time units. -/
def totalCents (m : Monzo) : Float :=
  if m.residual = 0 then -Double.infinity
  else
    let total := addSizes Prime.measures m.exps m.cents
    if m.residual.abs = 1 then total else total + 1200 * Double.log2Ratio m.residual

/-- The nearest double that can be had, ignoring time units. -/
def valueOf (m : Monzo) : Float :=
  if m.residual = 0 then 0
  else match (if m.isFractional then Double.ofRat? m.ratio else none) with
    | some x => x
    | none =>
      let magnitude := Double.centsToValue m.totalCents
      if m.residual < 0 then -magnitude else magnitude

end Monzo

end Intonation
