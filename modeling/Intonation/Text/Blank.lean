/-!
# Blank characters

The characters that may surround a number: the space separators of Unicode and the control
characters that act as separators. Where only white space is allowed, the information separators
among the control characters do not count.
-/

namespace Intonation.Text

/-- The ranges of blank characters. -/
def blankRanges : List (Nat × Nat) :=
  [(0x9, 0xd), (0x1c, 0x20), (0x85, 0x85), (0xa0, 0xa0), (0x1680, 0x1680), (0x2000, 0x200a),
   (0x2028, 0x2029), (0x202f, 0x202f), (0x205f, 0x205f), (0x3000, 0x3000)]

/-- A character that may surround a number. -/
def isBlank (c : Char) : Bool :=
  blankRanges.any fun range => range.1 ≤ c.toNat && c.toNat ≤ range.2

/-- A control character that separates files, groups, records or units. -/
def isInformationSeparator (c : Char) : Bool := 0x1c ≤ c.toNat && c.toNat ≤ 0x1f

/-- A character of white space. -/
def isWhite (c : Char) : Bool := isBlank c && !isInformationSeparator c

/-- Drops the characters of a class on both sides of a text. -/
def trimBy (class? : Char → Bool) (cs : List Char) : List Char :=
  ((cs.dropWhile class?).reverse.dropWhile class?).reverse

/-- Drops the blanks on both sides of a text. -/
def trim (cs : List Char) : List Char := trimBy isBlank cs

end Intonation.Text
