import Intonation.Fields.Datum

/-!
# Quoted scalars

A scalar between single quotes is taken as it is, except that a quote inside is written twice.
Between double quotes a backslash opens an escape: a letter for a character, or a code point of
two, four or eight hexadecimal digits after `x`, `u` or `U`.

## Main definitions

* `Scalar.readSingle`: the text up to a closing single quote
* `Scalar.readDouble`: the code points up to a closing double quote
* `Scalar.quoted?`: the datum of a quoted scalar
-/

namespace Intonation.Scalar

/-- The text up to the closing quote, and what follows it; a quote written twice is part of the
text. -/
def readSingle : List Char → Option (List Char × List Char)
  | [] => none
  | [c] => if c = Text.singleQuote then some ([], []) else none
  | c :: d :: cs =>
    if c ≠ Text.singleQuote then
      (readSingle (d :: cs)).map fun (text, rest) => (c :: text, rest)
    else if d = Text.singleQuote then
      (readSingle cs).map fun (text, rest) => (c :: text, rest)
    else some ([], d :: cs)

/-- The code points that letters and marks stand for after a backslash. -/
def namedPoints : List (Char × Nat) :=
  [('0', 0x0), ('a', 0x7), ('b', 0x8), ('t', 0x9), ('\t', 0x9), ('n', 0xa), ('v', 0xb),
   ('f', 0xc), ('r', 0xd), ('e', 0x1b), (' ', 0x20), (Text.doubleQuote, 0x22), ('/', 0x2f),
   (Text.backslash, 0x5c), ('N', 0x85), ('_', 0xa0), ('L', 0x2028), ('P', 0x2029)]

/-- The number of hexadecimal digits after the letters that announce a code point. -/
def widths : List (Char × Nat) := [('x', 2), ('u', 4), ('U', 8)]

/-- What the characters read so far have begun. -/
inductive Escape
  /-- No escape. -/
  | none
  /-- An escape, of which only the backslash has been read. -/
  | opened
  /-- A code point with digits still to come, and its value so far. -/
  | digits (left value : Nat)

/-- The code points up to the closing quote, and what follows it. -/
def readDouble : Escape → List Char → Option (List Nat × List Char)
  | _, [] => none
  | .none, c :: cs =>
    if c = Text.doubleQuote then some ([], cs)
    else if c = Text.backslash then readDouble .opened cs
    else (readDouble .none cs).map fun (points, rest) => (c.toNat :: points, rest)
  | .opened, c :: cs =>
    match namedPoints.lookup c, widths.lookup c with
    | some point, _ => (readDouble .none cs).map fun (points, rest) => (point :: points, rest)
    | none, some width => readDouble (.digits width 0) cs
    | none, none => none
  | .digits left value, c :: cs =>
    match Text.hexValue? c with
    | none => none
    | some d =>
      if left ≤ 1 then
        (readDouble .none cs).map fun (points, rest) => ((16 * value + d) :: points, rest)
      else readDouble (.digits (left - 1) (16 * value + d)) cs

/-- The datum that code points make up. Points beyond the last one fail, and halves of a
surrogate pair make no text. -/
def ofPoints (points : List Nat) : Except Fault Datum :=
  if points.any (0x10ffff < ·) then .error .notNumeric
  else if points.any fun n => 0xd800 ≤ n && n < 0xe000 then .ok .other
  else .ok (.text (String.ofList (points.map Char.ofNat)))

/-- The datum of a quoted scalar, and what follows it. -/
def quoted? : List Char → Option (Except Fault Datum × List Char)
  | [] => none
  | c :: cs =>
    if c = Text.singleQuote then
      (readSingle cs).map fun (text, rest) => (.ok (.text (String.ofList text)), rest)
    else if c = Text.doubleQuote then
      (readDouble .none cs).map fun (points, rest) => (ofPoints points, rest)
    else none

end Intonation.Scalar
