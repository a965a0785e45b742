import Intonation.FJS.Arrows
import Intonation.FJS.Inflection
import Intonation.Fields.Context
import Intonation.Interval.Basic
import Intonation.Literal.Text

/-!
# Spelling intervals

A literal is concrete, waiting or absent. Realization maps all three onto one of two outcomes: a
concrete literal, or a reason for giving up, whereupon the number is displayed.

## Main definitions

* `Realization`: a literal, or a reason for having none
* `realize`: resolves the literal of a value against a context
* `Interval.text`, `Interval.labeledText`, `Val.text`: quantities as they are written
-/

namespace Intonation

/-- The outcome of resolving a literal. -/
inductive Realization
  /-- A concrete literal. -/
  | realized (l : Literal)
  /-- No literal fits. -/
  | gaveUp (reason : String)

/-- A value without its real correction, and the ups and lifts that make it up; or why it is no
whole number of them. -/
def stripArrows (s : Settings) (m : Monzo) (c : Context) :
    Except Fault (Monzo × ArrowCount ⊕ String) := do
  let count ← ArrowCount.ofCents m.cents c.up c.lift
  if count.isExact then
    let plain ← Monzo.checked s { m with cents := 0 }
    return .inl (plain, count)
  else
    return .inr (Double.text m.cents ++ " cents are not a whole number of ups and lifts")

/-- Inflections with the ups and lifts of a count. -/
def Inflections.withArrows (i : Inflections) (c : ArrowCount) : Inflections :=
  { i with ups := c.ups, lifts := c.lifts }

/-- Spells an exact value relative to C4 as a pitch. -/
def realizePitch (s : Settings) (relative : Monzo) (flavor : String) (c : Context) :
    Memoized Realization := do
  match ← Memoized.ofExcept (stripArrows s relative c) with
  | .inr reason => return .gaveUp reason
  | .inl (m, count) =>
    match ← spellPitch s m flavor with
    | none => return .gaveUp "no absolute FJS spelling"
    | some (name, inflections) => return .realized (.pitch name (inflections.withArrows count))

/-- Spells an exact value without correction as an interval. -/
def realizePlain (s : Settings) (m : Monzo) (flavor : String) (count : ArrowCount) :
    Memoized Realization := do
  match ← spellInterval s m flavor with
  | none => return .gaveUp "no FJS spelling"
  | some (name, inflections) => return .realized (.interval name (inflections.withArrows count))

/-- Spells an exact value as an interval; a real correction needs a context. -/
def realizeInterval (s : Settings) (m : Monzo) (flavor : String) (context : Option Context) :
    Memoized Realization := do
  if m.isUncorrected then realizePlain s m flavor { ups := 0, lifts := 0, steps := 0, residue := 0 }
  else match context with
    | none => return .gaveUp "real corrections need a context"
    | some c =>
      match ← Memoized.ofExcept (stripArrows s m c) with
      | .inr reason => return .gaveUp reason
      | .inl (plain, count) => realizePlain s plain flavor count

/-- Resolves the literal of a value against a context. -/
def realize (s : Settings) (v : Value) (literal : Option Literal) (context : Option Context) :
    Memoized Realization := do
  match literal with
  | none => return .gaveUp "no literal"
  | some (.aspiringPitch flavor) =>
    match context with
    | none => return .gaveUp "absolute pitches need a context"
    | some c =>
      match ← Memoized.ofExcept (v.div s c.c4) with
      | .real _ => return .gaveUp "pitch is not exact relative to C4"
      | .exact relative => realizePitch s relative flavor c
  | some (.aspiringInterval flavor) =>
    match v with
    | .real _ => return .gaveUp "real values have no FJS spelling"
    | .exact m => realizeInterval s m flavor context
  | some l => return .realized l

namespace Interval

/-- Resolves the literal of an interval against a context. -/
def realize (s : Settings) (i : Interval) (context : Option Context) : Memoized Realization :=
  Intonation.realize s i.value i.literal context

/-- An interval as it is written, without color and label: by its literal, or by its number when
there is none or when it cannot be spelled. -/
def text (s : Settings) (i : Interval) (context : Option Context) : Memoized String := do
  match ← i.realize s context with
  | .gaveUp _ => return i.value.text i.domain
  | .realized l => Memoized.ofExcept l.text

/-- The color and label after a text, if there are any. -/
def label (m : Metadata) (base : String) : String :=
  if m.color.isNone && m.label.isEmpty then base
  else
    let color := m.color.toList.map Metadata.colorText
    let label := if m.label.isEmpty then [] else [Text.labelQuoted m.label]
    "(" ++ " ".intercalate (base :: color ++ label) ++ ")"

/-- An interval as it is written, with its color and label. -/
def labeledText (s : Settings) (i : Interval) (context : Option Context) : Memoized String := do
  let base ← i.text s context
  return label i.metadata base

end Interval

/-- A val as it is written, with its equave unless that is the octave. -/
def Val.text (s : Settings) (v : Val) : Except Fault String :=
  match v.literal with
  | some l => l.text
  | none => do
    let map := v.value.text .cologarithmic
    let octave ← Monzo.ofRatio s 2
    if v.equave.equals (.exact octave) then return map
    else return "withEquave(" ++ map ++ ", " ++ v.equave.text .linear ++ ")"

end Intonation
