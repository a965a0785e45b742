import Intonation.Fields.Datum

/-!
# Plain scalars

What a scalar without quotes denotes: nothing, a truth value, an integer in one of several bases,
a floating point number, a moment in time, or else the text itself. Underscores may part the
digits of numbers, and colons part digits in base sixty.

## Main definitions

* `Scalar.integer?`, `Scalar.double?`: the number that a scalar denotes
* `Scalar.isMoment?`: whether a scalar denotes a moment, and whether there is such a moment
* `Scalar.plain`: the datum that a scalar denotes
-/

namespace Intonation.Scalar

/-! ## Words -/

/-- Words for nothing. -/
def nullWords : List String := ["", "~", "null", "Null", "NULL"]

/-- Words for truth. -/
def trueWords : List String := ["true", "True", "TRUE", "yes", "Yes", "YES", "on", "On", "ON"]

/-- Words for falsehood. -/
def falseWords : List String :=
  ["false", "False", "FALSE", "no", "No", "NO", "off", "Off", "OFF"]

/-- Words for infinity. -/
def infinityWords : List String := [".inf", ".Inf", ".INF"]

/-- Words for what is no number. -/
def nanWords : List String := [".nan", ".NaN", ".NAN"]

/-! ## Integers -/

/-- A digit of a base, or an underscore. -/
def isDigitOrGap (base : Nat) (c : Char) : Bool := Text.isDigitOf base c || c = '_'

/-- The number that digits of a base denote when the underscores are left out; there has to be a
digit. -/
def gapped (base : Nat) (cs : List Char) : Except Fault Nat :=
  let digits := cs.filter (· ≠ '_')
  if digits.isEmpty || (base = 10 && Datum.maxDigits < digits.length) then .error .notNumeric
  else .ok (Text.natInBase base digits)

/-- The parts of a text between colons. -/
def colonParts : List Char → List (List Char)
  | [] => [[]]
  | c :: cs =>
    match colonParts cs with
    | [] => [[c]]
    | part :: parts => if c = ':' then [] :: part :: parts else (c :: part) :: parts

/-- A part after a colon: a number below sixty in one or two digits. -/
def isSixtieth (cs : List Char) : Bool :=
  match cs with
  | [c] => Text.isLatinDigit c
  | [c, d] => Text.isDigitOf 6 c && Text.isLatinDigit d
  | _ => false

/-- Decimal digits and underscores that start with a digit. -/
def isRow (cs : List Char) : Bool :=
  cs.head?.any Text.isLatinDigit && cs.all (isDigitOrGap 10)

/-- The size of an integer: binary after `0b`, hexadecimal after `0x`, octal after any other zero,
and otherwise decimal or, with colons, in base sixty. -/
def natural? (cs : List Char) : Option (Except Fault Nat) :=
  match cs with
  | ['0'] => some (.ok 0)
  | '0' :: 'b' :: c :: rest =>
    if (c :: rest).all (isDigitOrGap 2) then some (gapped 2 (c :: rest)) else none
  | '0' :: 'x' :: c :: rest =>
    if (c :: rest).all (isDigitOrGap 16) then some (gapped 16 (c :: rest)) else none
  | '0' :: rest => if rest.all (isDigitOrGap 8) then some (gapped 8 ('0' :: rest)) else none
  | _ =>
    match colonParts cs with
    | first :: rest =>
      if isRow first && rest.all isSixtieth then
        some (rest.foldl (fun n part => n.map (60 * · + Text.natInBase 10 part)) (gapped 10 first))
      else none
    | [] => none

/-- The integer that a scalar denotes, if it is written as one. -/
def integer? (cs : List Char) : Option (Except Fault Int) :=
  let signed := Ratio.takeSign cs
  (natural? signed.2).map fun size =>
    size.map fun (n : Nat) => if signed.1 then -(n : Int) else (n : Int)

/-! ## Floating point numbers -/

/-- The exponent of a floating point number, which needs a sign. -/
def exponent? : List Char → Option Int
  | [] => some 0
  | mark :: sign :: c :: rest =>
    if (mark = 'e' || mark = 'E') && (sign = '+' || sign = '-') &&
        (c :: rest).all Text.isLatinDigit then
      let size : Int := Text.natInBase 10 (c :: rest)
      some (if sign = '-' then -size else size)
    else none
  | _ => none

/-- The value of decimal digits, with underscores, before and after a point. -/
def pointed (whole fraction : List Char) (exponent : Int) : Float :=
  let places := fraction.filter (· ≠ '_')
  Double.ofDecimal (Text.natInBase 10 (whole.filter (· ≠ '_') ++ places)) (exponent - places.length)

/-- The value of parts in base sixty, from the last to the first. -/
def sixties : List (List Char) → Float → Nat → Float
  | [], total, _ => total
  | part :: parts, total, unit =>
    sixties parts (total + pointed part [] 0 * Double.nearest unit) (60 * unit)

/-- The value of parts in base sixty of which the last has a fraction. -/
def sixtyDouble (parts : List (List Char)) (fraction : List Char) : Float :=
  match parts.reverse with
  | [] => 0
  | last :: front => sixties front (0 + pointed last fraction 0) 60

/-- The magnitude of a floating point number, which needs a point. Only one that starts with a
digit may have a sign or be written in base sixty. -/
def magnitude? (hasSign : Bool) (cs : List Char) : Option Float :=
  let whole := cs.takeWhile (· ≠ '.')
  match colonParts whole, cs.drop whole.length with
  | [[]], _ :: c :: rest =>
    let fraction := (c :: rest).takeWhile (isDigitOrGap 10)
    if hasSign || !Text.isLatinDigit c then none
    else (exponent? ((c :: rest).drop fraction.length)).map (pointed [] fraction)
  | [first], _ :: rest =>
    let fraction := rest.takeWhile (isDigitOrGap 10)
    if isRow first then (exponent? (rest.drop fraction.length)).map (pointed first fraction)
    else none
  | first :: parts, _ :: fraction =>
    if isRow first && parts.all isSixtieth && fraction.all (isDigitOrGap 10) then
      some (sixtyDouble (first :: parts) fraction)
    else none
  | _, _ => none

/-- The floating point number that a scalar denotes, if it is written as one. -/
def double? (s : String) : Option Float :=
  if nanWords.contains s then some Double.notANumber
  else
    let signed := Ratio.takeSign s.toList
    let size? :=
      if infinityWords.contains (String.ofList signed.2) then some Double.infinity
      else magnitude? (signed.2.length < s.toList.length) signed.2
    size?.map fun size => if signed.1 then -size else size

/-! ## Moments -/

/-- A number of `least` to `most` digits in front of a text, and what follows it. -/
def count? (least most : Nat) (cs : List Char) : Option (Nat × List Char) :=
  let digits := (cs.takeWhile Text.isLatinDigit).take most
  if digits.length < least then none
  else some (Text.natInBase 10 digits, cs.drop digits.length)

/-- Takes a mark off a text. -/
def mark? (mark : Char) (cs : List Char) : Option (List Char) :=
  if cs.head? = some mark then some cs.tail else none

/-- The days of a month. -/
def daysOf (year month : Nat) : Nat :=
  if month = 2 then
    if year % 4 = 0 ∧ (year % 100 ≠ 0 ∨ year % 400 = 0) then 29 else 28
  else if month = 4 ∨ month = 6 ∨ month = 9 ∨ month = 11 then 30
  else 31

/-- There is such a day. -/
def isDay (year month day : Nat) : Bool :=
  1 ≤ year && 1 ≤ month && month ≤ 12 && 1 ≤ day && day ≤ daysOf year month

/-- A day, with two digits for month and day. -/
def day? (cs : List Char) : Option Bool := do
  let (year, cs) ← count? 4 4 cs
  let (month, cs) ← (mark? '-' cs).bind (count? 2 2)
  let (day, cs) ← (mark? '-' cs).bind (count? 2 2)
  if cs.isEmpty then some (isDay year month day) else none

/-- A distance from the prime meridian, which is less than a day. -/
def zone? (cs : List Char) : Option Bool :=
  match cs.dropWhile (· = ' ') with
  | [] => if cs.isEmpty then some true else none
  | ['Z'] => some true
  | c :: rest =>
    if c = '+' || c = '-' then do
      let (hours, rest) ← count? 1 2 rest
      if rest.isEmpty then some (hours < 24)
      else
        let (minutes, rest) ← (mark? ':' rest).bind (count? 2 2)
        if rest.isEmpty then some (60 * hours + minutes < 24 * 60) else none
    else none

/-- A day and a time of day. -/
def moment? (cs : List Char) : Option Bool := do
  let (year, cs) ← count? 4 4 cs
  let (month, cs) ← (mark? '-' cs).bind (count? 1 2)
  let (day, cs) ← (mark? '-' cs).bind (count? 1 2)
  let spaces := cs.takeWhile (· = ' ')
  let cs ← if spaces.isEmpty then (mark? 'T' cs).or (mark? 't' cs) else some (cs.drop spaces.length)
  let (hour, cs) ← count? 1 2 cs
  let (minute, cs) ← (mark? ':' cs).bind (count? 2 2)
  let (second, cs) ← (mark? ':' cs).bind (count? 2 2)
  let cs := match mark? '.' cs with
    | some rest => rest.dropWhile Text.isLatinDigit
    | none => cs
  let zone ← zone? cs
  some (isDay year month day && hour < 24 && minute < 60 && second < 60 && zone)

/-- Whether a scalar that denotes a moment denotes one that there is. -/
def isMoment? (cs : List Char) : Option Bool := (day? cs).or (moment? cs)

/-! ## Data -/

/-- The datum that a scalar denotes. A moment is neither number nor text, and one that there is
not fails, as do numbers without digits. -/
def plain (s : String) : Except Fault Datum :=
  if nullWords.contains s then .ok .null
  else if trueWords.contains s then .ok (.truth true)
  else if falseWords.contains s then .ok (.truth false)
  else match double? s, integer? s.toList, isMoment? s.toList with
    | some x, _, _ => .ok (.double x)
    | none, some n, _ => n.map .integer
    | none, none, some true => .ok .other
    | none, none, some false => .error .notNumeric
    | none, none, none => .ok (.text s)

end Intonation.Scalar
