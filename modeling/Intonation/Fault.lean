import Intonation.Domain
import Intonation.Ratio.Text
import Intonation.Text.Quoted

/-!
# Faults

Every operation either returns a new value or fails with the cause of its failure. A cause
belongs to one family, so that a caller can tell a value that grew too large from an operation
that is not defined, and most causes have a message of their own.

## Main definitions

* `Fault`: the causes of failure
* `Fault.Family`, `Fault.family`: the family of a cause
* `Fault.message?`: the message of a cause
-/

namespace Intonation

/-- Why an operation failed. -/
inductive Fault
  /-- Two operands live in different domains. -/
  | domainsDiffer (operation : String) (left right : Domain)
  /-- Neither operand of a product or quotient is linear. -/
  | linearRequired (operation : String)
  /-- An interval was to be cologarithmic. -/
  | cologarithmicInterval
  /-- Two vals are measured against different equaves. -/
  | equavesDiffer (operation : String)
  /-- The exponent of a prime is too large. -/
  | exponentBound (prime : Nat) (exponent : Rat)
  /-- The residual has too many binary digits. -/
  | residualBound
  /-- The size in cents is too large, or does not fit a double. -/
  | magnitudeBound
  /-- A literal has a zero denominator. -/
  | zeroDenominator (written : String)
  /-- A literal has an equave that is not positive. -/
  | invalidEquave (written : String)
  /-- A vector has more components than its basis has elements. -/
  | tooManyComponents (count basis : Nat)
  /-- A val does not have as many components as its basis has elements. -/
  | componentMismatch (count basis : Nat)
  /-- A val is written over a basis element that is no prime of the table. -/
  | compositeValBasis (element : Rat)
  /-- A unit has an unknown prefix. -/
  | unknownPrefix (text : String)
  /-- A placeholder was used as a written literal. -/
  | aspiringLiteral
  /-- A literal exceeds the bounds. -/
  | literalOutOfRange
  /-- The whole part of a decimal carries a sign. -/
  | signedWhole (whole : Int)
  /-- The fractional part of a decimal is no row of digits. -/
  | fractionalDigits (text : String)
  /-- An interval degree is zero. -/
  | zeroDegree
  /-- A degree has no such quality. -/
  | invalidQuality (quality : String) (degree : Int)
  /-- A note name does not start with a nominal. -/
  | unknownNominal (text : String)
  /-- A note name has an unknown accidental. -/
  | unknownAccidental (text : String)
  /-- An inflection has an unknown comma flavor. -/
  | unknownCommaFlavor (text : String)
  /-- A number below five has no comma. -/
  | uninflectable (number : Int)
  /-- A square superparticular starts below two. -/
  | superparticularStart (start : Int)
  /-- A range of square superparticulars ends before it starts. -/
  | superparticularRange (start stop : Int)
  /-- An irrational value was to be a fraction. -/
  | irrational
  /-- A value was to be an integer. -/
  | notInteger (value : String)
  /-- A value was projected onto a number that is no prime of the table. -/
  | compositeBasis (element : Int)
  /-- Two values have different time units. -/
  | disparateUnits (operation : String)
  /-- An exponent has time units. -/
  | nonScalarPower
  /-- A value with time units was raised to an irrational power. -/
  | irrationalTimePower
  /-- The base of a logarithm has no time units but the value has, or the values are real. -/
  | timeLogarithm
  /-- No power of a base with time units is the value. -/
  | noLogarithm (value base : String)
  /-- A residual cannot be factored over the prime table. -/
  | residualDot
  /-- A real value has no exponents to pair. -/
  | realDot
  /-- A real value has no exponents to compare. -/
  | realDivisors (operation : String)
  /-- A vector is orthogonal to itself. -/
  | noGeometricInverse (value : String)
  /-- The period of a reduction has no finite size. -/
  | unisonReduction
  /-- A value with time units has no size in cents. -/
  | notScalar (value : String)
  /-- A val has time units. -/
  | timeVal (value : String)
  /-- A val was scaled by something other than a linear scalar. -/
  | valScalar
  /-- Only linear quantities have powers. -/
  | linearPower
  /-- An operation is only defined for linear quantities. -/
  | linearOnly (operation : String)
  /-- The terms of an equal division have time units. -/
  | scalarBackslash
  /-- The base of exponential rounding has time units. -/
  | scalarRounding
  /-- A size in cents is no number. -/
  | invalidCents
  /-- More primes were asked for than the table has. -/
  | tableExhausted
  /-- Zero has no prime factors. -/
  | zeroFactorization
  /-- A negative ratio is no product of primes. -/
  | unfactored (ratio : Rat)
  /-- A ratio has prime factors beyond the table. -/
  | primeBeyondTable (ratio : Rat)
  /-- A ratio has no terminating decimal expansion. -/
  | endlessDecimal (ratio : Rat)
  /-- No region of the circle of fifths holds a prime. -/
  | noRegion
  /-- A document is no mapping of fields. -/
  | notMapping
  /-- A text denotes no number. -/
  | notNumeric
  /-- A word names no choice. -/
  | unknownChoice
  /-- The logarithm of zero or of a negative number was taken. -/
  | undefinedLogarithm
  /-- A number is not in the prime table. -/
  | notInTable
  /-- What is no number was to become exact. -/
  | notANumber
  /-- A denominator or divisor is zero. -/
  | zeroDivisor
  /-- An infinite double was to become exact. -/
  | infinite
  /-- A ratio is too large for a double. -/
  | tooLarge
  /-- Some fields of a record are not acceptable. -/
  | invalidFields (names : List String)
  /-- A component has no prime of the table. -/
  | componentBeyondTable
  /-- A note name is spelled with no single nominal. -/
  | nominalWithoutVector
  deriving DecidableEq, Repr

namespace Fault

/-- The families of failure. -/
inductive Family
  /-- Operands of incompatible domains. -/
  | domain
  /-- A value beyond the bounds in force. -/
  | overflow
  /-- A literal with invalid components. -/
  | malformed
  /-- A value that has no exact form. -/
  | unrepresentable
  /-- An operation that is not defined for its operands. -/
  | unsupported
  /-- An argument outside the range of a function. -/
  | argument
  /-- A division by zero. -/
  | division
  /-- A conversion out of or into a double that does not fit. -/
  | conversion
  /-- Fields that do not validate. -/
  | validation
  /-- A position outside a table. -/
  | position
  /-- A name outside a table. -/
  | name
  deriving DecidableEq, Repr

/-- The family of a cause. -/
def family : Fault → Family
  | domainsDiffer .. | linearRequired _ | cologarithmicInterval | equavesDiffer _ => .domain
  | exponentBound .. | residualBound | magnitudeBound => .overflow
  | zeroDenominator _ | invalidEquave _ | tooManyComponents .. | componentMismatch ..
  | compositeValBasis _ | unknownPrefix _ | aspiringLiteral | literalOutOfRange | signedWhole _
  | fractionalDigits _ | zeroDegree | invalidQuality .. | unknownNominal _ | unknownAccidental _
  | unknownCommaFlavor _ | uninflectable _ | superparticularStart _
  | superparticularRange .. => .malformed
  | irrational | notInteger _ | compositeBasis _ => .unrepresentable
  | disparateUnits _ | nonScalarPower | irrationalTimePower | timeLogarithm | noLogarithm ..
  | residualDot | realDot | realDivisors _ | noGeometricInverse _ | unisonReduction | notScalar _
  | timeVal _ | valScalar | linearPower | linearOnly _ | scalarBackslash
  | scalarRounding => .unsupported
  | invalidCents | tableExhausted | zeroFactorization | unfactored _ | primeBeyondTable _
  | endlessDecimal _ | noRegion | notMapping | notNumeric | unknownChoice | undefinedLogarithm
  | notInTable | notANumber => .argument
  | zeroDivisor => .division
  | infinite | tooLarge => .conversion
  | invalidFields _ => .validation
  | componentBeyondTable => .position
  | nominalWithoutVector => .name

/-- The families that arithmetic on numbers can fail with; a literal or a spelling is given up
when one of them arises on the way. -/
def isArithmetic (f : Fault) : Bool :=
  match f.family with
  | .overflow | .malformed | .unrepresentable | .argument | .division | .conversion => true
  | .domain | .unsupported | .validation | .position | .name => false

/-- The message of a cause, where the cause says more than its family. -/
def message? : Fault → Option String
  | domainsDiffer operation left right =>
    some ("Domains must match in " ++ operation ++ ": " ++ left.name ++ " vs " ++ right.name)
  | linearRequired operation => some ("At least one domain must be linear in " ++ operation)
  | cologarithmicInterval => some "Cologarithmic quantities are vals, not intervals"
  | equavesDiffer operation => some ("Val equaves must match in " ++ operation)
  | exponentBound prime exponent =>
    some ("Exponent of " ++ toString prime ++ " exceeds the absurdity bound: " ++
      Ratio.text exponent)
  | residualBound => some "Residual exceeds the absurdity bound"
  | magnitudeBound => some "Magnitude exceeds the absurdity bound"
  | zeroDenominator written => some ("Zero denominator in " ++ written)
  | invalidEquave written => some ("Invalid equave in " ++ written)
  | tooManyComponents count basis =>
    some ("Too many components for the given subgroup: " ++ toString count ++ " > " ++
      toString basis)
  | componentMismatch count basis =>
    some ("Val components must match the subgroup: " ++ toString count ++ " != " ++
      toString basis)
  | compositeValBasis element =>
    some ("Subgroup basis element " ++ Ratio.text element ++ " is not a prime")
  | unknownPrefix text => some ("Unknown unit prefix: " ++ Text.quoted text)
  | aspiringLiteral => some "Aspiring nodes must be realized before use"
  | literalOutOfRange => some "Literal out of range"
  | signedWhole whole => some ("Use the negative flag for signs: " ++ toString whole)
  | fractionalDigits text => some ("Invalid fractional digits: " ++ Text.quoted text)
  | zeroDegree => some "Interval degree cannot be zero"
  | invalidQuality quality degree =>
    some ("Invalid quality " ++ Text.quoted quality ++ " for degree " ++ toString degree)
  | unknownNominal text => some ("Unknown nominal: " ++ Text.quoted text)
  | unknownAccidental text => some ("Unknown accidental: " ++ Text.quoted text)
  | unknownCommaFlavor text => some ("Unknown comma flavor: " ++ Text.quoted text)
  | uninflectable number => some ("Cannot inflect by prime " ++ toString number)
  | superparticularStart start =>
    some ("Square superparticular must start at 2 or more: " ++ toString start)
  | superparticularRange start stop =>
    some ("Empty square superparticular range: " ++ toString start ++ ".." ++ toString stop)
  | irrational => some "Unable to convert irrational number to fraction"
  | notInteger value => some ("Value is not an integer: " ++ value)
  | compositeBasis element =>
    some ("Subgroup basis element " ++ toString element ++ " is not a prime")
  | disparateUnits operation => some ("Cannot " ++ operation ++ " values with disparate units")
  | nonScalarPower => some "Can only raise to a scalar power"
  | irrationalTimePower => some "Cannot raise time units to an irrational power"
  | timeLogarithm => some "Cannot take a scalar logarithm of a value with time units"
  | noLogarithm value base =>
    some ("No logarithm exists between " ++ value ++ " and " ++ base)
  | residualDot => some "Residuals prevent calculating the dot product"
  | realDot => some "Real values have no prime vector to pair"
  | realDivisors operation =>
    some ("Real values have no prime vector to take the " ++ operation ++ " of")
  | noGeometricInverse value => some ("No geometric inverse exists for " ++ value)
  | unisonReduction => some "Cannot reduce by a unison"
  | notScalar value => some ("Value has time units: " ++ value)
  | timeVal value => some ("Only relative vals implemented: " ++ value)
  | valScalar => some "Vals can only be scaled by linear scalars"
  | linearPower => some "Exponentiation is only defined for linear quantities"
  | linearOnly operation => some (operation ++ " is only defined for linear quantities")
  | scalarBackslash => some "Only scalars can be backslashed"
  | scalarRounding => some "Only scalar exponential rounding is implemented"
  | invalidCents => some "Invalid cents value: nan"
  | tableExhausted => some "Prime table only has 1000 primes"
  | zeroFactorization => some "Zero has no prime factorization"
  | unfactored ratio => some ("Cannot factor " ++ Ratio.text ratio ++ " into primes")
  | primeBeyondTable ratio =>
    some (Ratio.text ratio ++ " has prime factors beyond the prime table")
  | endlessDecimal ratio => some (Ratio.text ratio ++ " has no terminating decimal expansion")
  | noRegion => some "Unable to locate NFJS region"
  | notMapping => some "Expected a mapping"
  | notNumeric | unknownChoice | undefinedLogarithm | notInTable | notANumber | zeroDivisor
  | infinite | tooLarge | invalidFields _ | componentBeyondTable | nominalWithoutVector => none

/-- The fault of a text that denotes no ratio. -/
def ofReadError : Ratio.ReadError → Fault
  | .malformed => notNumeric
  | .zeroDenominator => zeroDivisor

end Fault

/-- The ratio that a text denotes. -/
def Ratio.ofText (s : String) : Except Fault Rat := (Ratio.read s).mapError Fault.ofReadError

/-- The integer that a text denotes. -/
def Ratio.integerOfText (s : String) : Except Fault Int :=
  match Ratio.readInteger? s with
  | some n => .ok n
  | none => .error .notNumeric

end Intonation
