import Intonation.Text.Printable

/-!
# Quoted texts

Two ways of quoting a text so that it can stand inside a line. Error messages quote with single
quotes, or with double quotes when the text holds a single quote and no double one, and keep
every printable character. Labels are quoted in ASCII: everything beyond it is escaped in
UTF-16 units.

## Main definitions

* `quoted`: a text as an error message quotes it
* `labelQuoted`: a text as a label is written
-/

namespace Intonation.Text

/-- The character that opens every escape. -/
def backslash : Char := '\x5c'

/-- The mark around a quoted text. -/
def singleQuote : Char := '\x27'

/-- The mark around a label. -/
def doubleQuote : Char := '\x22'

/-- A hexadecimal digit in lower case. -/
def hexDigit (n : Nat) : Char :=
  if n < 10 then Char.ofNat (48 + n) else Char.ofNat (87 + n)

/-- The last `width` hexadecimal digits of a number. -/
def hex : Nat → Nat → List Char
  | 0, _ => []
  | width + 1, n => hex width (n / 16) ++ [hexDigit (n % 16)]

/-- One character of a text quoted by `mark` in an error message. -/
def quotedChar (mark c : Char) : List Char :=
  if c = mark || c = backslash then [backslash, c]
  else if c = '\n' then [backslash, 'n']
  else if c = '\r' then [backslash, 'r']
  else if c = '\t' then [backslash, 't']
  else if isPrintable c then [c]
  else if c.toNat < 0x100 then backslash :: 'x' :: hex 2 c.toNat
  else if c.toNat < 0x10000 then backslash :: 'u' :: hex 4 c.toNat
  else backslash :: 'U' :: hex 8 c.toNat

/-- The mark that quotes a text: single, unless only double avoids an escape. -/
def quoteMark (s : String) : Char :=
  if s.toList.contains singleQuote && !s.toList.contains doubleQuote then doubleQuote else singleQuote

/-- A text as an error message quotes it. -/
def quoted (s : String) : String :=
  let mark := quoteMark s
  String.ofList (mark :: s.toList.flatMap (quotedChar mark) ++ [mark])

/-- One UTF-16 unit as an escape. -/
def unitEscape (n : Nat) : List Char := backslash :: 'u' :: hex 4 n

/-- One character of a quoted label. -/
def labelChar (c : Char) : List Char :=
  if c = doubleQuote || c = backslash then [backslash, c]
  else if c = '\n' then [backslash, 'n']
  else if c = '\r' then [backslash, 'r']
  else if c = '\t' then [backslash, 't']
  else if c.toNat = 8 then [backslash, 'b']
  else if c.toNat = 12 then [backslash, 'f']
  else if 0x20 ≤ c.toNat && c.toNat < 0x7f then [c]
  else if c.toNat < 0x10000 then unitEscape c.toNat
  else
    let rest := c.toNat - 0x10000
    unitEscape (0xd800 + rest / 0x400) ++ unitEscape (0xdc00 + rest % 0x400)

/-- A text as a label is written: between double quotes and in ASCII alone. -/
def labelQuoted (s : String) : String :=
  String.ofList (doubleQuote :: s.toList.flatMap labelChar ++ [doubleQuote])

end Intonation.Text
