import Intonation.Fields.Scalar.Plain
import Intonation.Fields.Scalar.Quoted

/-!
# Flat documents

A flat document holds one field a line, a name and a plain or quoted scalar parted by a colon.
Comments start with a number sign. A document that is empty or void counts as one without
fields; any other document that holds no fields is no mapping.

## Main definitions

* `Document.scalar?`: the datum that the text after a colon denotes
* `Document.field?`: the field of a line
* `Document.read`: the fields of a document
-/

namespace Intonation.Document

/-! ## Lines -/

/-- A character that ends a line. -/
def endsLine (c : Char) : Bool :=
  c = '\n' || c = '\r' || c.toNat = 0x85 || c.toNat = 0x2028 || c.toNat = 0x2029

/-- The lines of a text. -/
def splitLines : List Char → List (List Char)
  | [] => [[]]
  | c :: cs =>
    match splitLines cs with
    | [] => [[c]]
    | line :: lines => if endsLine c then [] :: line :: lines else (c :: line) :: lines

/-- A text without the mark that some files start with. -/
def withoutByteOrderMark : List Char → List Char
  | c :: cs => if c.toNat = 0xfeff then cs else c :: cs
  | [] => []

/-- A line without its comment, which starts the line or follows a space. -/
def uncommented : Bool → List Char → List Char
  | _, [] => []
  | afterSpace, c :: cs =>
    if afterSpace && c = '#' then [] else c :: uncommented (c = ' ') cs

/-- A text without the spaces around it. -/
def trimSpaces (cs : List Char) : List Char := Text.trimBy (· = ' ') cs

/-- A line without its comment and the spaces around it. -/
def written (line : List Char) : List Char := trimSpaces (uncommented true line)

/-- A line that follows the mark where a document starts. -/
def afterStart (line : List Char) : List Char :=
  match line with
  | ['-', '-', '-'] => []
  | '-' :: '-' :: '-' :: ' ' :: rest => rest
  | _ => line

/-- Lines that carry no data: comments, directives and the mark where a document ends. -/
def isSilent (line : List Char) : Bool :=
  let text := written line
  text.isEmpty || line.head? = some '%' || text = ['.', '.', '.']

/-! ## Scalars -/

/-- A character that opens a collection. -/
def opensCollection (c : Char) : Bool := c = '[' || c = '\x7b'

/-- The datum that the text after a colon denotes, unless a quote is not closed. -/
def scalar? (cs : List Char) : Option (Except Fault Datum) :=
  match cs.dropWhile (· = ' ') with
  | [] => some (.ok .null)
  | c :: rest =>
    if c = Text.singleQuote || c = Text.doubleQuote then (Scalar.quoted? (c :: rest)).map Prod.fst
    else if opensCollection c then some (.ok .other)
    else some (Scalar.plain (String.ofList (written (c :: rest))))

/-! ## Fields -/

/-- A plain name and what follows the colon after it, which ends the line or comes before a
space. A comment ends the line. -/
def splitName : Bool → List Char → Option (List Char × List Char)
  | _, [] => none
  | afterSpace, c :: cs =>
    if afterSpace && c = '#' then none
    else if c = ':' && (cs.isEmpty || cs.head? = some ' ') then some ([], cs)
    else (splitName (c = ' ') cs).map fun (name, rest) => (c :: name, rest)

/-- A quoted name and what follows the colon after it. -/
def splitQuoted (line : List Char) : Option (List Char × List Char) :=
  match Scalar.quoted? line with
  | some (.ok (.text name), rest) =>
    match splitName true rest with
    | some (spaces, rest) => if spaces.all (· = ' ') then some (name.toList, rest) else none
    | none => none
  | _ => none

/-- A mark that makes what follows it an item of a list or a part of a nested mapping. -/
def isMark (c : Char) : Bool := c = '-' || c = '?' || c = ':'

/-- A line starts a collection. -/
def startsCollection (line : List Char) : Bool :=
  match line with
  | [] => false
  | c :: rest => opensCollection c || (isMark c && (rest.isEmpty || rest.head? = some ' '))

/-- The field of a line, unless the line is an item of a list or no field at all. -/
def field? (line : List Char) : Option (String × Except Fault Datum) := do
  let line := line.dropWhile (· = ' ')
  let quoted := line.head? = some Text.singleQuote || line.head? = some Text.doubleQuote
  if startsCollection line then none
  else
    let (name, rest) ← if quoted then splitQuoted line else splitName true line
    let datum ← scalar? rest
    some (String.ofList (if quoted then name else trimSpaces name), datum)

/-! ## Documents -/

/-- The lines of a text that carry data. -/
def contentLines (s : String) : List (List Char) :=
  ((splitLines (withoutByteOrderMark s.toList)).map afterStart).filter fun line => !isSilent line

/-- A document without fields holds no data: an empty collection, or a void scalar. -/
def isVoid (lines : List (List Char)) : Except Fault Bool :=
  let text := String.ofList ((lines.flatMap written).filter (· ≠ ' '))
  if text = "[]" ∨ text = "\x7b\x7d" then .ok true
  else match lines with
    | [line] =>
      match scalar? line with
      | some datum => datum.map Datum.isVoid
      | none => .ok false
    | _ => .ok false

/-- The fields of a document. -/
def read (s : String) : Except Fault Fields :=
  let lines := contentLines s
  match lines.mapM field? with
  | some fields => fields.mapM fun (name, datum) => datum.map fun d => (name, d)
  | none => do if ← isVoid lines then .ok [] else .error .notMapping

end Intonation.Document
