import Intonation.Double.Text
import Intonation.Text.Quoted
import Intonation.Value.Basic

/-!
# Field values

The fields of settings and contexts are given as loosely typed data. An integer field accepts
whole numbers in any form, also as text; a number field accepts any number.

## Main definitions

* `Datum`: a loosely typed value
* `Fields`: named data in the order given
* `Datum.toInteger?`, `Datum.toDouble?`, `Datum.toText?`: what a datum stands for
-/

namespace Intonation

/-- A loosely typed value. -/
inductive Datum
  | null
  | truth (b : Bool)
  | integer (n : Int)
  | ratio (q : Rat)
  | double (x : Float)
  | text (s : String)
  | value (v : Value)
  /-- A value of any other type. -/
  | other

/-- Named data in the order given. -/
abbrev Fields := List (String × Datum)

/-- The datum of a name; the last one given counts. -/
def Fields.find? (fields : Fields) (name : String) : Option Datum := fields.reverse.lookup name

/-- The names that a predicate picks, sorted and once each. -/
def Fields.sortedNames (names : List String) : List String :=
  (names.mergeSort fun a b => a ≤ b).eraseDups

namespace Datum

/-- The integer of a whole ratio. -/
def wholeRatio? (q : Rat) : Option Int := if q.den = 1 then some q.num else none

/-- The integer of a whole double below 2^63 in magnitude. -/
def wholeDouble? (x : Float) : Option Int :=
  ((Double.toRat? x).bind wholeRatio?).filter fun n => n.natAbs < 1 <<< 63

/-- A text without its underscores, each of which has to stand alone between other characters. -/
def withoutGaps? (cs : List Char) : Option (List Char) :=
  if cs.head? = some '_' || cs.getLast? = some '_' || (cs.zip cs.tail).contains ('_', '_') then none
  else some (cs.filter (· ≠ '_'))

/-- A text without its leading zeros and the underscores among them; one character stays before
a point and at the end. -/
def withoutLeadingZeros (cs : List Char) : List Char :=
  if cs.head? = some '0' then
    let zeros := cs.takeWhile fun c => c = '0' || c = '_'
    let rest := cs.drop zeros.length
    match rest with
    | [] => zeros.drop (zeros.length - 1)
    | '.' :: _ => zeros.drop (zeros.length - 1) ++ rest
    | _ => rest
  else cs

/-- A text without a point and the zeros that follow it, of which there is at least one. -/
def withoutZeroFraction (cs : List Char) : List Char :=
  let whole := cs.takeWhile (· ≠ '.')
  match cs.drop whole.length with
  | _ :: c :: rest => if (c :: rest).all (· = '0') then whole else cs
  | _ => cs

/-- The most digits that an integer may be written with. -/
def maxDigits : Nat := 4300

/-- The natural number that a row of Latin digits denotes. -/
def naturalOfDigits? (cs : List Char) : Option Nat :=
  if cs.isEmpty || maxDigits < cs.length || !cs.all Text.isLatinDigit then none
  else some (Text.natInBase 10 cs)

/-- The integer of a text, which may start with zeros and end in a point and zeros. -/
def integerOfText? (s : String) : Option Int :=
  match Text.trimBy Text.isWhite s.toList with
  | '-' :: cs => (digits? cs).map fun n => -(n : Int)
  | '+' :: cs => (digits? cs).map fun n => (n : Int)
  | cs => (digits? cs).map fun n => (n : Int)
where
  /-- The value of a text without its sign. -/
  digits? (cs : List Char) : Option Nat :=
    (withoutGaps? (withoutZeroFraction (withoutLeadingZeros cs))).bind naturalOfDigits?

/-- A visible character of the Latin script other than the underscore. -/
def isPlain (c : Char) : Bool := '!' ≤ c && c ≤ '~' && c ≠ '_'

/-- The double of a text of plain characters. -/
def plainDouble? (cs : List Char) : Option Float :=
  if cs.all isPlain then Double.ofText? (String.ofList cs) else none

/-- The double of a text, which is either surrounded by white space or parted by underscores. -/
def doubleOfText? (s : String) : Option Float :=
  if s.toList.contains '_' then (withoutGaps? s.toList).bind plainDouble?
  else plainDouble? (Text.trimBy Text.isWhite s.toList)

/-- The integer that a datum stands for in an integer field. -/
def toInteger? : Datum → Option Int
  | truth b => some (if b then 1 else 0)
  | integer n => some n
  | ratio q => wholeRatio? q
  | double x => wholeDouble? x
  | text s => integerOfText? s
  | value v => wholeDouble? v.valueOf
  | null | other => none

/-- The double that a datum stands for in a number field. -/
def toDouble? : Datum → Option Float
  | truth b => some (if b then 1 else 0)
  | integer n => Double.ofRat? n
  | ratio q => Double.ofRat? q
  | double x => some x
  | text s => doubleOfText? s
  | value v => some v.valueOf
  | null | other => none

/-- The text that a datum is. -/
def toText? : Datum → Option String
  | text s => some s
  | _ => none

/-- Counts as no data at all: nothing, falsehood, zero or the empty text. -/
def isVoid : Datum → Bool
  | null => true
  | truth b => !b
  | integer n => n = 0
  | double x => x == 0
  | text s => s.isEmpty
  | _ => false

end Datum

end Intonation
