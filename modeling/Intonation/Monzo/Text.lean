import Intonation.Double.Text
import Intonation.Monzo.Temperament

/-!
# Exact values as text

In the linear domain a monzo is written as an integer, a fraction, a decimal with its unit or a
radical; in the logarithmic domain as steps of an equal division or as a vector of exponents; in
the cologarithmic domain as a map. What has no exact form is written as a real number.

## Main definitions

* `unitSuffix`: the unit of a power of time
* `Monzo.linearText`, `Monzo.logarithmicText`, `Monzo.cologarithmicText`
* `Monzo.text`: the text in a given domain
-/

namespace Intonation

/-- The unit that follows a number with a power of the time unit. -/
def unitSuffix (time : Rat) : String :=
  if time = 0 then ""
  else if time < 0 then if time = -1 then " Hz" else " Hz^" ++ Ratio.text (-time)
  else if time = 1 then " s" else " s^" ++ Ratio.text time

namespace Monzo

/-- A vector without the zeros at its end. -/
def trimZeros (es : List Rat) : List Rat := (es.reverse.dropWhile (· = 0)).reverse

/-- The components of a vector up to the last nonzero one. -/
def componentsText (es : List Rat) : String := " ".intercalate ((trimZeros es).map Ratio.text)

/-- A vector of exponents between its brackets. -/
def vectorText (es : List Rat) : String := "[" ++ componentsText es ++ ">"

/-- The powers of primes in a vector of exponents. -/
def factorTexts (es : List Rat) : List String :=
  ((Prime.table.zip es).filter fun (_, e) => e ≠ 0).map fun ((p : Nat), e) =>
    toString p ++ "^(" ++ Ratio.text e ++ ")"

/-- A value as a number with its unit. -/
def linearText (m : Monzo) : String :=
  let suffix := unitSuffix m.time
  if m.isFractional then
    match (if m.time ≠ 0 then Ratio.decimalText? m.ratio else none) with
    | some decimal => decimal ++ suffix
    | none => Ratio.text m.ratio ++ suffix
  else if m.isEqualTemperament then
    let (fraction, equave) := temperament m.exps
    Ratio.text equave ++ "^(" ++ Ratio.text fraction ++ ")"
  else if m.isUncorrected && m.residual = 1 then
    "*".intercalate (factorTexts m.exps) ++ suffix
  else Double.display m.valueOf ++ "r" ++ suffix

/-- The most binary digits that the terms of an equave may have to be written as steps. -/
def maxEquaveBits : Nat := 64

/-- Steps of an equal division of the octave, or of another equave. -/
def stepsText (fraction equave : Rat) : String :=
  let steps := toString fraction.num ++ "\\" ++ toString fraction.den
  if equave = 2 then steps else steps ++ "<" ++ Ratio.text equave ++ ">"

/-- A rational power of a ratio as steps if its equave is small, otherwise as a vector. -/
def temperamentText (m : Monzo) : String :=
  if isFlat m.exps then "0\\1"
  else
    let (fraction, equave) := temperament m.exps
    if (m.isPowerOfTwo || m.exps.any fun e => e.den ≠ 1) && Ratio.bits equave ≤ maxEquaveBits then
      stepsText fraction equave
    else vectorText m.exps

/-- The terms of a value with a residual or a real correction. -/
def logarithmicTerms (m : Monzo) : List String :=
  let vector := if isFlat m.exps then [] else [vectorText m.exps]
  let residual :=
    if m.residual = 1 then []
    else [Double.display (1200 * Double.log2Ratio m.residual) ++ "rc"]
  let terms := vector ++ residual
  if m.isUncorrected && !terms.isEmpty then terms
  else terms ++ [Double.display m.cents ++ "rc"]

/-- A value as an interval. -/
def logarithmicText (m : Monzo) : String :=
  if m.residual = 0 then Double.display (-Double.infinity)
  else if m.residual < 0 then Double.display Double.notANumber
  else if m.isEqualTemperament then temperamentText m
  else " + ".intercalate (logarithmicTerms m)

/-- A value as a map. -/
def cologarithmicText (m : Monzo) : String :=
  let map := "<" ++ componentsText m.exps ++ "]"
  if m.isUncorrected then map else map ++ " + <" ++ Double.display m.cents ++ "rc]"

/-- A value as it is written in a domain. -/
def text (m : Monzo) : Domain → String
  | .linear => m.linearText
  | .logarithmic => m.logarithmicText
  | .cologarithmic => m.cologarithmicText

end Monzo

end Intonation
