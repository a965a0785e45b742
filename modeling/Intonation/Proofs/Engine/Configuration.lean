import Intonation.Proofs.Engine.Steps
import Intonation.Proofs.Fields.Settings

/-!
# Changes of settings

Settings are changed by configuring the engine, by resetting it, by setting how many primes new
values track, and by loading a document. A change finds out the settings that it asks for before it
puts them in force, so it either fails and leaves the engine as it is, or leaves valid settings
behind.

## Main definitions

* `Change`, `Change.step`: the ways to change settings
* `Change.result`, `Change.applies`: the settings that a change asks for, and whether they come into
  force
* `Change.history`: the engine after changes

## Main statements

* `Change.run_eq`: what a change leaves behind
* `Change.valid_history`: every history of changes leaves valid settings
* `Change.settings_of_history`: valid settings, atomic failures and exact overrides
-/

namespace Intonation

/-- A change of settings keeps them valid. -/
theorem Step.valid_of_overridden {inForce s : Settings} (h : inForce.Valid)
    {base : Option { s : Settings // s.Valid }} {fields : Fields}
    (hs : overridden inForce (base.map Subtype.val) fields = .ok s) : s.Valid := by
  have hbase : ((base.map Subtype.val).getD inForce).Valid := by
    cases base with
    | none => exact h
    | some base => exact base.property
  unfold overridden at hs
  simp only at hs
  split at hs
  · cases hs
    exact hbase
  · exact Settings.valid_of_override hbase hs

/-- The fields that a change of settings names are overridden, unless some of them are bad. -/
theorem Step.overridden_cases (inForce : Settings) (base : Option Settings) (fields : Fields) :
    (∃ names, overridden inForce base fields = .error (.invalidFields names) ∧ names ≠ [] ∧
      ∀ name, name ∈ names ↔ Settings.IsBad fields name) ∨
    ∃ s, overridden inForce base fields = .ok s ∧
      Settings.Overrides (base.getD inForce) fields s ∧ ∀ name, ¬ Settings.IsBad fields name := by
  unfold overridden
  simp only
  split
  · next hnil =>
    obtain rfl := List.isEmpty_iff.mp hnil
    refine .inr ⟨_, rfl, fun k _ => ⟨fun _ => rfl, ?_⟩, ?_⟩
    · rintro d ⟨⟩
    · rintro name ⟨d, ⟨⟩, -⟩
  · exact Settings.override_cases _ fields

/-! ## Changes -/

/-- A way to change settings. -/
inductive Change
  | configure (base : Option { s : Settings // s.Valid }) (fields : Fields)
  | reset
  | setComponents (count : Datum)
  | load (document : String) (apply : Bool)

namespace Change

variable {c : Change} {e : Engine} {inForce s : Settings}

/-- The step that makes a change. -/
def step : Change → Step Settings
  | configure base fields => Step.configure (base.map Subtype.val) fields
  | reset => Step.resetSettings
  | setComponents count => Step.setComponents count
  | load document apply => Step.loadSettings document apply

/-- What a change results in, and the engine after it. -/
def run (c : Change) (e : Engine) : Except Fault Settings × Engine := c.step.run.run e

/-- The settings that a change asks for. -/
def result (inForce : Settings) : Change → Except Fault Settings
  | configure base fields => Step.overridden inForce (base.map Subtype.val) fields
  | reset => .ok {}
  | setComponents count => Step.overridden inForce none [("number_of_components", count)]
  | load document _ => do Settings.ofFields (← Document.read document)

/-- The settings that a change asks for come into force, unless a document is only looked at. -/
def applies : Change → Bool
  | load _ apply => apply
  | _ => true

/-- A change that fails leaves the engine as it is; any other changes no more than the settings in
force. -/
theorem run_eq (c : Change) (e : Engine) : c.run e =
    match c.result e.settings with
    | .ok s => (.ok s, if c.applies then { e with settings := s } else e)
    | .error fault => (.error fault, e) := by
  cases c with
  | configure base fields => exact Step.run_configure
  | reset => rfl
  | setComponents count => exact Step.run_configure
  | load document apply =>
    show (Step.loadSettings document apply).run.run e = _
    rw [Step.loadSettings, Step.run_bind, Step.run_compute]
    simp only [result, applies]
    cases Document.read document >>= Settings.ofFields with
    | error fault => rfl
    | ok s => cases apply <;> rfl

/-- Valid settings are only changed to valid ones. -/
theorem valid_of_result (h : inForce.Valid) (hs : c.result inForce = .ok s) : s.Valid := by
  cases c with
  | configure base fields => exact Step.valid_of_overridden h hs
  | reset =>
    cases hs
    exact Settings.valid_default
  | setComponents count =>
    exact @Step.valid_of_overridden _ _ h none [("number_of_components", count)] hs
  | load document apply =>
    obtain ⟨fields, -, hfields⟩ := bind_eq_ok.mp hs
    exact Settings.valid_of_override Settings.valid_default hfields

theorem valid_run (c : Change) (h : e.settings.Valid) : (c.run e).2.settings.Valid := by
  rw [run_eq]
  cases hs : c.result e.settings with
  | error fault => exact h
  | ok s =>
    simp only
    split
    · exact valid_of_result h hs
    · exact h

/-! ## Histories of changes -/

/-- The engine after changes. -/
def history (changes : List Change) : Engine := changes.foldl (fun e c => (c.run e).2) {}

theorem valid_foldl (changes : List Change) (h : e.settings.Valid) :
    (changes.foldl (fun e c => (c.run e).2) e).settings.Valid := by
  induction changes generalizing e with
  | nil => exact h
  | cons c changes ih => exact ih (c.valid_run h)

/-- Every history of changes leaves valid settings. -/
theorem valid_history (changes : List Change) : (history changes).settings.Valid :=
  valid_foldl changes Settings.valid_default

/-- After every history of changes the settings in force are valid. A change that fails leaves the
engine exactly as it is, and so does looking at a document. Configuring the engine either fails and
reports the names of the bad fields, or changes just the fields that are given, of the base or of
the settings in force. -/
theorem settings_of_history (changes : List Change) :
    let e := history changes
    e.settings.Valid ∧
      (∀ c fault, (run c e).1 = .error fault → (run c e).2 = e) ∧
      (∀ document, (run (load document false) e).2 = e) ∧
      ∀ base fields,
        (∃ names, run (configure base fields) e = (.error (.invalidFields names), e) ∧
          names ≠ [] ∧ ∀ name, name ∈ names ↔ Settings.IsBad fields name) ∨
        ∃ s, run (configure base fields) e = (.ok s, { e with settings := s }) ∧
          Settings.Overrides ((base.map Subtype.val).getD e.settings) fields s ∧
          ∀ name, ¬ Settings.IsBad fields name := by
  intro e
  refine ⟨valid_history changes, fun c fault hfault => ?_, fun document => ?_,
    fun base fields => ?_⟩
  · rw [run_eq] at hfault ⊢
    cases hs : c.result e.settings with
    | error fault => rfl
    | ok s =>
      rw [hs] at hfault
      cases hfault
  · rw [run_eq]
    cases (load document false).result e.settings <;> rfl
  · rw [run_eq]
    rcases Step.overridden_cases e.settings (base.map Subtype.val) fields with
      ⟨names, hresult, hnames⟩ | ⟨s, hresult, hoverrides⟩
    · rw [result, hresult]
      exact .inl ⟨names, rfl, hnames⟩
    · rw [result, hresult]
      exact .inr ⟨s, rfl, hoverrides⟩

/-- A document with no primes to track fails to load after two successful changes. -/
theorem settings_of_history_noPrimes :
    let e := history
      [configure none [("absurd_exponent", .integer 100)], setComponents (.integer 5)]
    let c := load "number_of_components: 0" true
    e.settings = { numberOfComponents := 5, absurdExponent := 100 } ∧ e.settings.Valid ∧
      (run c e).1 = .error (.invalidFields ["number_of_components"]) ∧ (run c e).2 = e := by
  intro e c
  have hfault : (run c e).1 = .error (.invalidFields ["number_of_components"]) := by decide +kernel
  obtain ⟨hvalid, hatomic, -⟩ := settings_of_history
    [configure none [("absurd_exponent", .integer 100)], setComponents (.integer 5)]
  exact ⟨by decide +kernel, hvalid, hfault, hatomic c _ hfault⟩

end Change

end Intonation
