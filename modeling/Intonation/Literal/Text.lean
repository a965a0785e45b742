import Intonation.Literal.Basic

/-!
# Literals as text

Every literal but a placeholder is written in one way. Arrows for lifts and ups come first,
commas above and below last.

## Main definitions

* `Literal.arrows`: the arrows of ups and lifts
* `Literal.text`: a literal as it is written
-/

namespace Intonation

/-- A text repeated as often as a count says, or another as often as its negation says. -/
def repeated (count : Int) (up down : Char) : String :=
  String.ofList (List.replicate count.natAbs (if 0 ≤ count then up else down))

/-- The arrows of lifts, then those of ups. -/
def arrows (ups lifts : Int) : String := repeated lifts '/' Text.backslash ++ repeated ups '^' 'v'

namespace Digits

/-- The sign of digits. -/
def signText (d : Digits) : String := if d.negative then "-" else ""

/-- The exponent of digits. -/
def exponentText (d : Digits) : String :=
  match d.exponent with
  | none => ""
  | some e => "e" ++ toString e

/-- Digits without a point when none follows it. -/
def text (d : Digits) : String :=
  d.signText ++ toString d.whole ++ (if d.fraction.isEmpty then "" else "." ++ d.fraction) ++
    d.exponentText

/-- Digits with a point in any case. -/
def pointedText (d : Digits) : String :=
  d.signText ++ toString d.whole ++ "." ++ d.fraction ++ d.exponentText

end Digits

/-- Steps of an equal division as they are written. -/
def Steps.text (s : Steps) : String :=
  let division := toString s.numerator ++ "\\" ++ toString s.denominator
  match s.equave? with
  | none => division
  | some equave => division ++ "<" ++ Ratio.text equave ++ ">"

namespace Components

/-- The entries of a vector. -/
def entriesText (c : Components) : String := " ".intercalate (c.entries.map Ratio.text)

/-- The basis of a vector. -/
def basisText (c : Components) : String :=
  if c.basis.isEmpty then "" else "@" ++ ".".intercalate (c.basis.map Ratio.text)

end Components

namespace Inflections

/-- A row of inflections after its mark. -/
def rowText (mark : String) (row : List Inflection) : String :=
  if row.isEmpty then "" else mark ++ ",".intercalate (row.map Inflection.text)

/-- A name between its arrows and its commas. -/
def around (i : Inflections) (name : String) : String :=
  arrows i.ups i.lifts ++ name ++ rowText "^" i.superscripts ++ rowText "_" i.subscripts

end Inflections

/-- A literal as it is written; a placeholder has no written form. -/
def Literal.text : Literal → Except Fault String
  | integer value => .ok (toString value)
  | fraction numerator denominator => .ok (toString numerator ++ "/" ++ toString denominator)
  | decimal digits flavor => .ok (digits.text ++ flavor.mark)
  | cents digits real => .ok (digits.pointedText ++ if real then "rc" else "")
  | cent real => .ok (if real then "rc" else "c")
  | steps s => .ok s.text
  | interval name inflections => .ok (inflections.around name.text)
  | pitch name inflections => .ok (inflections.around name.text)
  | monzo c => .ok (arrows c.ups c.lifts ++ "[" ++ c.entriesText ++ ">" ++ c.basisText)
  | val c => .ok (arrows c.ups c.lifts ++ "<" ++ c.entriesText ++ "]" ++ c.basisText)
  | hertz unitPrefix => .ok (unitPrefix ++ "Hz")
  | second unitPrefix => .ok (unitPrefix ++ "s")
  | superparticular start none => .ok ("S" ++ toString start)
  | superparticular start (some stop) => .ok ("S" ++ toString start ++ ".." ++ toString stop)
  | radical argument exponent =>
    .ok (Ratio.text argument ++ "^(" ++ Ratio.text exponent ++ ")")
  | aspiringInterval _ | aspiringPitch _ => .error .aspiringLiteral

end Intonation
