import Intonation.Fields.Datum
import Intonation.Monzo.Arithmetic

/-!
# Formatting contexts

Placeholders and note names cannot be spelled without knowing how large the up and lift
inflections are and which pitch C4 is. A context holds just that.

## Main definitions

* `Context`: inflection sizes and the reference pitch
* `Context.upValue`, `Context.liftValue`: the inflections as values
* `Context.ofFields`: a context from loosely typed fields
-/

namespace Intonation

/-- What is needed to spell values. -/
structure Context where
  /-- The size of the up inflection in cents. -/
  up : Float
  /-- The size of the lift inflection in cents. -/
  lift : Float
  /-- The value of the pitch C4: unity or a frequency. -/
  c4 : Value
  title : String

namespace Context

/-- The size of the up inflection unless another is given. -/
def defaultUp : Float := 1

/-- The size of the lift inflection unless another is given. -/
def defaultLift : Float := 5

/-- The context that stands for a missing one. -/
def default (s : Settings) : Except Fault Context := do
  let one ← Monzo.unity s s.numberOfComponents
  return { up := defaultUp, lift := defaultLift, c4 := .exact one, title := "" }

/-- The up inflection as a value. -/
def upValue (s : Settings) (c : Context) : Except Fault Monzo :=
  Monzo.ofCents s s.numberOfComponents c.up

/-- The lift inflection as a value. -/
def liftValue (s : Settings) (c : Context) : Except Fault Monzo :=
  Monzo.ofCents s s.numberOfComponents c.lift

/-! ## Fields -/

/-- A frequency such as `261.6 Hz`, or a plain number. -/
def pitchOfText (s : Settings) (text : String) : Except Fault Value := do
  let cs := Text.trim text.toList
  if cs.drop (cs.length - 2) = ['H', 'z'] then
    let q ← Ratio.ofText (String.ofList (cs.take (cs.length - 2)))
    (Monzo.ofFrequency s q).map .exact
  else
    let q ← Ratio.ofText (String.ofList cs)
    (Monzo.ofRatio s q).map .exact

/-- The reference pitch that a datum stands for. -/
def pitchOf (s : Settings) : Datum → Except Fault Value
  | .value v => .ok v
  | .truth b => (Monzo.ofRatio s (if b then 1 else 0)).map .exact
  | .integer n => (Monzo.ofRatio s n).map .exact
  | .ratio q => (Monzo.ofRatio s q).map .exact
  | .double x => pitchOfText s (Double.text x)
  | .text t => pitchOfText s t
  | .null | .other => .error .notNumeric

/-- The reference pitch of a field, or `none` when the field is bad; a fault of any other family
than a bad argument is a failure of its own. -/
def pitchField (s : Settings) (d : Option Datum) : Except Fault (Option Value) :=
  match d with
  | none => (Monzo.unity s s.numberOfComponents).map fun m => some (.exact m)
  | some d =>
    match pitchOf s d with
    | .ok v => .ok (some v)
    | .error fault => if fault.family = .argument then .ok none else .error fault

/-- The size of an inflection, which must be finite. -/
def sizeField (d : Option Datum) (missing : Float) : Option Float :=
  match d with
  | none => some missing
  | some d => d.toDouble?.filter Float.isFinite

/-- The text of a field, which is empty when the field is missing. -/
def textField : Option Datum → Option String
  | none => some ""
  | some d => d.toText?

/-- A context from loosely typed fields; fields of other names are ignored, and all bad fields
are reported together. -/
def ofFields (s : Settings) (fields : Fields) : Except Fault Context := do
  let up := sizeField (fields.find? "up") defaultUp
  let lift := sizeField (fields.find? "lift") defaultLift
  let c4 ← pitchField s (fields.find? "c4")
  let title := textField (fields.find? "title")
  match up, lift, c4, title with
  | some up, some lift, some c4, some title => return { up, lift, c4, title }
  | _, _, _, _ =>
    let checks :=
      [("c4", c4.isSome), ("lift", lift.isSome), ("title", title.isSome), ("up", up.isSome)]
    throw (.invalidFields ((checks.filter fun (_, ok) => !ok).map Prod.fst))

end Context

end Intonation
