import Intonation.Engine
import Intonation.Proofs.Outcome

/-!
# Running steps of the engine

A step starts from the state of the engine and ends with an outcome and a new state. A step that
only computes leaves the state as it is, and one that looks commas up changes nothing but the
commas.

## Main statements

* `Step.run_bind`: one step after another
* `Step.run_lower`, `Step.run_move`, `Step.run_configure`: what a step leaves behind
-/

namespace Intonation.Step

variable {α β : Type} {e : Engine}

theorem run_bind {x : Step α} {f : α → Step β} : (x >>= f).run.run e =
    match x.run.run e with
    | (.ok a, next) => (f a).run.run next
    | (.error fault, next) => (.error fault, next) := by
  show (ExceptT.bind x f).run.run e = _
  simp only [ExceptT.bind, ExceptT.mk, ExceptT.run, StateT.run, bind, StateT.bind]
  rcases h : x e with ⟨outcome, next⟩
  cases outcome <;> rfl

/-- A step whose result is only renamed. -/
theorem run_map {x : Step α} {f : α → β} : (do return f (← x) : Step β).run.run e =
    ((x.run.run e).1.map f, (x.run.run e).2) := by
  rw [run_bind]
  rcases h : x.run.run e with ⟨outcome, next⟩
  cases outcome <;> rfl

theorem run_compute {result : Settings → Except Fault α} :
    (compute result).run.run e = (result e.settings, e) := rfl

theorem run_memoized {result : Settings → Memoized α} : (memoized result).run.run e =
    (((result e.settings).run.run e.commas).1,
      { e with commas := ((result e.settings).run.run e.commas).2 }) := rfl

theorem run_lower {l : Literal} {context : Option Context} {remember : Bool} :
    (lower l context remember).run.run e =
    match (l.lower e.settings context).run.run e.commas with
    | (.ok q, commas) => (.ok q, { e with
        commas
        registry := bif remember then e.registry.trackLowered l q else e.registry })
    | (.error fault, commas) => (.error fault, { e with commas }) := by
  unfold lower
  rw [run_bind, run_memoized]
  rcases (l.lower e.settings context).run.run e.commas with ⟨outcome, commas⟩
  cases outcome <;> cases remember <;> rfl

theorem run_move {a : Arrow} {q : Quantity} {context : Context} :
    (move a q context true).run.run e =
    match q.move e.settings context a with
    | .ok moved => (.ok moved, { e with registry := e.registry.trackMoved moved })
    | .error fault => (.error fault, e) := by
  unfold move
  rw [run_bind, run_compute]
  cases q.move e.settings context a <;> rfl

/-- The settings that a change of settings puts in force. -/
def overridden (inForce : Settings) (base : Option Settings) (fields : Fields) :
    Except Fault Settings :=
  let base := base.getD inForce
  if fields.isEmpty then .ok base else base.override fields

theorem run_configure {base : Option Settings} {fields : Fields} :
    (configure base fields).run.run e =
    match overridden e.settings base fields with
    | .ok s => (.ok s, { e with settings := s })
    | .error fault => (.error fault, e) := by
  show ((compute fun inForce => overridden inForce base fields) >>= applySettings).run.run e = _
  rw [run_bind, run_compute]
  cases overridden e.settings base fields <;> rfl

end Intonation.Step
