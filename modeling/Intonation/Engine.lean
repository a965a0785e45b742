import Intonation.Fields.Settings
import Intonation.Interval.Quantity
import Intonation.Interval.Realization
import Intonation.Interval.Registry

/-!
# The engine

The engine keeps the settings in force, the commas found so far and the registry of fragile
values. A step computes a result from them, and a step that fails leaves the settings and the
registry as they were.

## Main definitions

* `Engine`: the state between steps
* `Step`: a computation over the state that may fail
* `Step.configure`, `Step.resetSettings`, `Step.loadSettings`, `Step.loadContext`: settings and
  contexts
* `Step.lower`, `Step.move`, `Step.takeBroken`: steps that remember or repair fragile values
-/

namespace Intonation

/-- The state between steps. -/
structure Engine where
  settings : Settings := {}
  commas : CommaMemo := []
  registry : Registry := []

/-- A computation over the state of the engine, which keeps what it changed even when it
fails. -/
abbrev Step := ExceptT Fault (StateM Engine)

namespace Step

/-- A computation that needs only the settings in force. -/
def compute {α : Type} (result : Settings → Except Fault α) : Step α :=
  ExceptT.mk fun engine => (result engine.settings, engine)

/-- A computation that may look up commas. -/
def memoized {α : Type} (result : Settings → Memoized α) : Step α :=
  ExceptT.mk fun engine =>
    let (outcome, commas) := (result engine.settings).run.run engine.commas
    (outcome, { engine with commas })

/-- The settings in force. -/
def settings : Step Settings := Step.compute .ok

/-- Changes the state. -/
def update (change : Engine → Engine) : Step Unit := modify change

/-- Puts settings in force. -/
def applySettings (s : Settings) : Step Settings := do
  update fun engine => { engine with settings := s }
  return s

/-- Puts settings in force that override fields of a base, or of those in force. -/
def configure (base : Option Settings) (fields : Fields) : Step Settings := do
  let s ← Step.compute fun inForce =>
    let base := base.getD inForce
    if fields.isEmpty then .ok base else base.override fields
  applySettings s

/-- Puts the default settings in force. -/
def resetSettings : Step Settings := configure (some {}) []

/-- Changes how many primes new values track. -/
def setComponents (count : Datum) : Step Settings :=
  configure none [("number_of_components", count)]

/-- The settings of a document, which are put in force if so asked. -/
def loadSettings (document : String) (apply : Bool) : Step Settings := do
  let s ← Step.compute fun _ => do Settings.ofFields (← Document.read document)
  if apply then applySettings s else return s

/-- The context of a document. -/
def loadContext (document : String) : Step Context :=
  Step.compute fun s => do Context.ofFields s (← Document.read document)

/-- The quantity of a literal, remembered if so asked and if it is fragile. -/
def lower (l : Literal) (context : Option Context) (remember : Bool) : Step Quantity := do
  let q ← memoized fun s => l.lower s context
  if remember then
    update fun engine => { engine with registry := engine.registry.trackLowered l q }
  return q

/-- A quantity moved by an arrow, remembered if so asked and if it kept a literal. -/
def move (a : Arrow) (q : Quantity) (context : Context) (remember : Bool) : Step Quantity := do
  let moved ← Step.compute fun s => q.move s context a
  if remember then
    update fun engine => { engine with registry := engine.registry.trackMoved moved }
  return moved

/-- Remembers a value. -/
def track (q : Quantity) : Step Unit :=
  update fun engine => { engine with registry := engine.registry.track q }

/-- How many values are remembered. -/
def trackedCount : Step Nat := do
  let engine ← get
  return engine.registry.length

/-- Copies of the remembered values that do not depend on a context; none stays remembered. -/
def takeBroken : Step (List Quantity) := do
  let engine ← get
  update fun engine => { engine with registry := [] }
  return engine.registry.broken

end Step

end Intonation
