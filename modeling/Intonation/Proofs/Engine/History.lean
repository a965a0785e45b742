import Intonation.Proofs.Engine.Configuration
import Intonation.Proofs.FJS.Recall
import Intonation.Proofs.Literal.Slips

/-!
# Histories of the engine

The engine keeps the commas that it has found, whatever settings come into force later. Two
histories that end in the same settings may therefore leave different commas behind. They cannot be
told apart by lowering literals or by spelling values.

## Main definitions

* `Literal.IsAstronomic`: a literal with a number that no memory holds
* `Engine.Sound`: valid settings and commas that have been found at some time
* `Action`, `Action.after`, `history`: what the engine is asked to do, and what it is then

## Main statements

* `Literal.steady_lower`, `steady_realize`: lowering and spelling do not depend on commas found
* `Action.sound_after`, `sound_history`: every history leaves valid settings and sound commas
* `agree_of_settings`: two histories that end in the same settings
-/

namespace Intonation

/-! ## Lowering -/

namespace Literal

/-- A literal that is inflected by a number with more binary digits than any memory holds. -/
def IsAstronomic (l : Literal) : Prop := ∃ i ∈ l.inflections, 2 ^ 100 < Ratio.bits i.number

variable {F : Fault → Prop} {s : Settings}

theorem steady_lowerValue (hF : ∀ f : Fault, f.family = .overflow → F f) (hs : s.Valid) {l : Literal}
    (hl : ∀ i ∈ l.inflections, F .tooLarge ∨ Ratio.bits i.number ≤ 2 ^ 100) (c : Context) :
    Memoized.Steady F (lowerValue s c l) := by
  cases l with
  | interval name i =>
    exact (Memoized.Steady.ofExcept _).bind fun base =>
      (steady_inflect hF hs hl _).bind fun v => .ofExcept _
  | pitch name i =>
    exact (Memoized.Steady.ofExcept _).bind fun base =>
      (steady_inflect hF hs hl _).bind fun v =>
        (Memoized.Steady.ofExcept _).bind fun absolute => .ofExcept _
  | _ => exact .ofExcept _

/-- Lowering a literal does not depend on the commas found so far. Overflows are reported alike,
wherever on the way they arise; only of a literal with an astronomic number is no more known than
that it fails. -/
theorem steady_lower (hs : s.Valid) (context : Option Context) (l : Literal) :
    Memoized.Steady (fun _ => l.IsAstronomic) (l.lower s context) := by
  have hwith : ∀ c, Memoized.Steady
      (fun f => f.family = .overflow ∨ f = .tooLarge ∧ l.IsAstronomic) (lowerWith s c l) := by
    intro c
    cases hval : l.isVal with
    | true =>
      cases l with
      | val w => exact .ofExcept _
      | _ => cases hval
    | false =>
      rw [lowerWith_eq hval]
      refine (steady_lowerValue (fun f hf => .inl hf) hs (fun i hi => ?_) c).bind fun v => .pure _
      by_cases hbits : Ratio.bits i.number ≤ 2 ^ 100
      · exact .inr hbits
      · exact .inl (.inr ⟨rfl, i, hi, not_le.mp hbits⟩)
  rw [lower_eq]
  refine (Memoized.Steady.ofExcept _).bind fun c => (hwith c).rename fun f g hf hg => ?_
  by_cases hl : l.IsAstronomic
  · exact .fail hl hl
  · have hf' : f.family = .overflow := hf.resolve_right fun h => hl h.2
    have hg' : g.family = .overflow := hg.resolve_right fun h => hl h.2
    rw [loweringFault, loweringFault, if_pos hf', if_pos hg']
    exact .same _

end Literal

/-! ## Spelling -/

section
variable {F : Fault → Prop} {s : Settings} (hs : s.Valid)
include hs

theorem steady_realizePlain (m : Monzo) (flavor : String) (count : ArrowCount) :
    Memoized.Steady F (realizePlain s m flavor count) := by
  refine (steady_spellInterval hs m flavor).bind fun found => ?_
  split <;> exact .pure _

theorem steady_realizePitch (m : Monzo) (flavor : String) (c : Context) :
    Memoized.Steady F (realizePitch s m flavor c) := by
  refine (Memoized.Steady.ofExcept _).bind fun stripped => ?_
  split
  · exact .pure _
  · refine (steady_spellPitch hs _ flavor).bind fun found => ?_
    split <;> exact .pure _

theorem steady_realizeInterval (m : Monzo) (flavor : String) (context : Option Context) :
    Memoized.Steady F (realizeInterval s m flavor context) := by
  unfold realizeInterval
  split
  · exact steady_realizePlain hs m flavor _
  · cases context with
    | none => exact .pure _
    | some c =>
      refine (Memoized.Steady.ofExcept _).bind fun stripped => ?_
      split
      · exact .pure _
      · exact steady_realizePlain hs _ flavor _

/-- Spelling a value does not depend on the commas found so far. -/
theorem steady_realize (v : Value) (literal : Option Literal) (context : Option Context) :
    Memoized.Steady F (realize s v literal context) := by
  unfold realize
  split
  · exact .pure _
  · cases context with
    | none => exact .pure _
    | some c =>
      refine (Memoized.Steady.ofExcept _).bind fun relative => ?_
      split
      · exact .pure _
      · exact steady_realizePitch hs _ _ c
  · split
    · exact .pure _
    · exact steady_realizeInterval hs _ _ context
  · exact .pure _

end

/-! ## Histories -/

/-- Valid settings in force, and commas that have each been found at some time. -/
structure Engine.Sound (e : Engine) : Prop where
  settings : e.settings.Valid
  commas : e.commas.Sound

/-- What the engine is asked to do. -/
inductive Action
  | configure (base : Option { s : Settings // s.Valid }) (fields : Fields)
  | reset
  | comma (key : CommaKey)
  | inflect (v : Value) (superscripts subscripts : List Inflection)
  | lower (l : Literal) (context : Option Context) (remember : Bool)
  | realize (v : Value) (literal : Option Literal) (context : Option Context)

/-- The engine after an action, whether it succeeds or not. -/
def Action.after (e : Engine) : Action → Engine
  | configure base fields => ((Step.configure (base.map Subtype.val) fields).run.run e).2
  | reset => (Step.resetSettings.run.run e).2
  | comma key => ((Step.memoized fun s => Intonation.comma s key).run.run e).2
  | inflect v superscripts subscripts =>
    ((Step.memoized fun s => Intonation.inflect s v superscripts subscripts).run.run e).2
  | lower l context remember => ((Step.lower l context remember).run.run e).2
  | realize v literal context =>
    ((Step.memoized fun s => Intonation.realize s v literal context).run.run e).2

/-- The engine after a history of actions. -/
def history (actions : List Action) : Engine := actions.foldl Action.after {}

/-- Every action leaves valid settings and sound commas. -/
theorem Action.sound_after (a : Action) {e : Engine} (h : e.Sound) : (a.after e).Sound := by
  have hconfigure : ∀ (base : Option { s : Settings // s.Valid }) fields,
      ((Step.configure (base.map Subtype.val) fields).run.run e).2.Sound := by
    intro base fields
    rw [Step.run_configure]
    cases hs : Step.overridden e.settings (base.map Subtype.val) fields with
    | error fault => exact h
    | ok s => exact ⟨Step.valid_of_overridden h.settings hs, h.commas⟩
  cases a with
  | configure base fields => exact hconfigure base fields
  | reset => exact hconfigure (some ⟨{}, Settings.valid_default⟩) []
  | comma key => exact ⟨h.settings, sound_comma h.commas key⟩
  | inflect v superscripts subscripts =>
    have hsteady : Memoized.Steady (fun _ => True)
        (Intonation.inflect e.settings v superscripts subscripts) :=
      steady_inflect (fun _ _ => trivial) h.settings (fun _ _ => .inl trivial) v
    exact ⟨h.settings, (hsteady _ _ h.commas h.commas).1⟩
  | lower l context remember =>
    have hsound := (Literal.steady_lower h.settings context l _ _ h.commas h.commas).1
    rw [after, Step.run_lower]
    rcases hrun : (l.lower e.settings context).run.run e.commas with ⟨outcome, commas⟩
    rw [hrun] at hsound
    cases outcome <;> exact ⟨h.settings, hsound⟩
  | realize v literal context =>
    have hsteady : Memoized.Steady (fun _ => False)
        (Intonation.realize e.settings v literal context) :=
      steady_realize h.settings v literal context
    exact ⟨h.settings, (hsteady _ _ h.commas h.commas).1⟩

theorem Action.sound_foldl {e : Engine} (h : e.Sound) (actions : List Action) :
    (actions.foldl after e).Sound := by
  induction actions generalizing e with
  | nil => exact h
  | cons a actions ih => exact ih (a.sound_after h)

theorem sound_history (actions : List Action) : (history actions).Sound :=
  Action.sound_foldl ⟨Settings.valid_default, .nil⟩ actions

/-- Lowering gives what it gives from the commas found so far. -/
theorem Step.outcome_lower {e : Engine} {l : Literal} {context : Option Context} {remember : Bool} :
    ((lower l context remember).run.run e).1 =
      ((l.lower e.settings context).run.run e.commas).1 := by
  rw [run_lower]
  rcases (l.lower e.settings context).run.run e.commas with ⟨outcome, commas⟩
  cases outcome <;> rfl

/-- After two histories that end in the same settings, every literal lowers to the same quantity or
fails with the same fault, and every value is spelled or given up alike. The one exception is a
number that no memory holds, by which the literal cannot be lowered after either of them. -/
theorem agree_of_settings {first second : List Action}
    (h : (history first).settings = (history second).settings) :
    (∀ (l : Literal) (context : Option Context) (remember : Bool),
      let lowered := fun e : Engine => ((Step.lower l context remember).run.run e).1
      lowered (history first) = lowered (history second) ∨
        l.IsAstronomic ∧ (∃ f, lowered (history first) = .error f) ∧
          ∃ g, lowered (history second) = .error g) ∧
    ∀ (v : Value) (literal : Option Literal) (context : Option Context),
      ((Step.memoized fun s => realize s v literal context).run.run (history first)).1 =
        ((Step.memoized fun s => realize s v literal context).run.run (history second)).1 := by
  obtain ⟨hs, hfirst⟩ := sound_history first
  obtain ⟨-, hsecond⟩ := sound_history second
  refine ⟨fun l context remember => ?_, fun v literal context => ?_⟩
  · simp only [Step.outcome_lower, ← h]
    exact (Literal.steady_lower hs context l _ _ hfirst hsecond).2.eq_or
  · rw [Step.run_memoized, Step.run_memoized, ← h]
    exact (steady_realize hs v literal context _ _ hfirst hsecond).2.eq

/-- Under a bound below the exponents of the syntonic comma, `M3^5` fails alike whether its comma was
found before or not. -/
theorem agree_syntonic :
    let narrow := Action.configure none [("absurd_exponent", .integer 3)]
    let found := history [.comma ⟨5, some ""⟩, narrow]
    let fresh := history [narrow]
    let lowered := fun e : Engine =>
      ((Step.lower (.interval ⟨.major, 3⟩ { superscripts := [⟨5, ""⟩] }) none false).run.run e).1
    found.commas.length = 1 ∧ fresh.commas.length = 0 ∧ found.settings = fresh.settings ∧
      (lowered fresh).toOption.isNone ∧ lowered found = lowered fresh := by
  intro narrow found fresh lowered
  have hsettings : found.settings = fresh.settings := by decide +kernel
  have hplain : ¬ Literal.IsAstronomic
      (.interval ⟨.major, 3⟩ { superscripts := [⟨5, ""⟩] }) := by
    rintro ⟨i, hi, hbits⟩
    cases List.mem_singleton.mp hi
    revert hbits
    decide
  have hagree := (agree_of_settings hsettings).1
  refine ⟨by decide +kernel, by decide +kernel, hsettings, by decide +kernel, ?_⟩
  exact (hagree _ none false).resolve_right fun h => hplain h.1

end Intonation
