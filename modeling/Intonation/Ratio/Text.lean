import Intonation.Text.Blank
import Intonation.Text.Digit

/-!
# Ratios as text

A ratio is written in lowest terms with the sign in front, and a whole ratio without its
denominator. It is read from a fraction such as `3/2` or from a decimal such as `-1.5e3`;
blanks may surround it and single underscores may part its digits.

## Main definitions

* `Ratio.text`: a ratio in lowest terms
* `Ratio.Written`: a number as it is written
* `Ratio.read`: the ratio that a text denotes, or why it denotes none
* `Ratio.readInteger?`: the integer that a text denotes
-/

namespace Intonation.Ratio

/-- A ratio in lowest terms, without the denominator when it is whole. -/
def text (q : Rat) : String :=
  if q.den = 1 then toString q.num else toString q.num ++ "/" ++ toString q.den

/-- Why a text denotes no ratio. -/
inductive ReadError
  /-- The text is not written as a number. -/
  | malformed
  /-- The denominator is zero. -/
  | zeroDenominator
  deriving DecidableEq, Repr

/-- A leading sign and what follows it; the flag is set by a minus sign. -/
def takeSign : List Char → Bool × List Char
  | '-' :: cs => (true, cs)
  | '+' :: cs => (false, cs)
  | cs => (false, cs)

/-- The longest row of digits, parted by single underscores, that a text starts with, and what
follows it. -/
def takeDigits : List Char → List Char × List Char
  | [] => ([], [])
  | [c] => if Text.isDigit c then ([c], []) else ([], [c])
  | c :: u :: cs =>
    if !Text.isDigit c then ([], c :: u :: cs)
    else if u = '_' then
      match takeDigits cs with
      | ([], _) => ([c], u :: cs)
      | (digits, rest) => (c :: digits, rest)
    else
      let tail := takeDigits (u :: cs)
      (c :: tail.1, tail.2)

/-- The number that a row of digits denotes. -/
def digitsValue (digits : List Char) : Nat := (Text.natOfDigits? digits).getD 0

/-- The power of ten that an exponent such as `e-3` stands for; no exponent stands for zero. -/
def readExponent : List Char → Option Int
  | [] => some 0
  | mark :: cs =>
    if mark = 'e' || mark = 'E' then
      let signed := takeSign cs
      match takeDigits signed.2 with
      | ([], _) => none
      | (digits, []) =>
        let size : Int := digitsValue digits
        some (if signed.1 then -size else size)
      | (_, _ :: _) => none
    else none

/-- A number as it is written, without its sign. -/
inductive Written
  /-- A numerator and a denominator. -/
  | quotient (num den : Nat)
  /-- A row of digits times a power of ten. -/
  | decimal (digits : Nat) (exponent : Int)
  deriving DecidableEq, Repr

/-- Reads a number without sign and surrounding blanks. -/
def Written.read? (cs : List Char) : Option Written :=
  let whole := takeDigits cs
  match whole.1, whole.2 with
  | _ :: _, '/' :: rest =>
    let below := takeDigits rest
    if below.1.isEmpty || !below.2.isEmpty then none
    else some (.quotient (digitsValue whole.1) (digitsValue below.1))
  | _, '.' :: rest =>
    let fraction := takeDigits rest
    if whole.1.isEmpty && fraction.1.isEmpty then none
    else (readExponent fraction.2).map fun e =>
      .decimal (digitsValue (whole.1 ++ fraction.1)) (e - fraction.1.length)
  | [], _ => none
  | _ :: _, rest => (readExponent rest).map fun e => .decimal (digitsValue whole.1) e

/-- The ratio that a written number denotes. -/
def Written.toRat : Written → Except ReadError Rat
  | quotient num den => if den = 0 then .error .zeroDenominator else .ok (mkRat num den)
  | decimal digits exponent => .ok ((digits : Rat) * (10 : Rat) ^ exponent)

/-- The ratio that a text denotes. -/
def read (s : String) : Except ReadError Rat :=
  let signed := takeSign (Text.trim s.toList)
  match Written.read? signed.2 with
  | none => .error .malformed
  | some written => written.toRat.map fun q => if signed.1 then -q else q

/-- The integer that a text denotes. -/
def readInteger? (s : String) : Option Int :=
  let signed := takeSign (Text.trim s.toList)
  let digits := takeDigits signed.2
  if digits.1.isEmpty || !digits.2.isEmpty then none
  else
    let size : Int := digitsValue digits.1
    some (if signed.1 then -size else size)

end Intonation.Ratio
