import Intonation.Proofs.Engine.Steps
import Intonation.Proofs.Literal.Sizes

/-!
# Runs that share a registry

A registry is passed to any number of calls that lower literals or move quantities by arrows.
Whatever the calls, what is not remembered cannot go stale, and what is remembered can be repaired
once the context changes.

## Main definitions

* `Literal.IgnoresArrows`, `Literal.IgnoresContext`: what a literal denotes without a context
* `Quantity.IsRepaired`: a copy of a quantity whose literal waits for a context or needs none
* `Call`, `Call.run`: the calls that share a registry
* `Call.Appends`: what a call appends to the registry

## Main statements

* `Literal.ignoresArrows_of_not_isFragile`: a literal without arrows does not depend on their sizes
* `Call.appends_step`, `Call.appends_run`: what a call and what a run appends
* `Call.run_takeBroken`: what a run appends, and how it is repaired
-/

namespace Intonation

/-! ## Literals and contexts -/

namespace Literal

variable {s : Settings} {c c' : Context} {l : Literal}

/-- Lowering gives the same in every two contexts with the same C4. -/
def IgnoresArrows (l : Literal) : Prop :=
  ∀ s x y c c', Context.given s x = .ok c → Context.given s y = .ok c' → c.c4 = c'.c4 →
    l.lower s x = l.lower s y

/-- Lowering gives the same in every two contexts. -/
def IgnoresContext (l : Literal) : Prop :=
  ∀ s x y c c', Context.given s x = .ok c → Context.given s y = .ok c' →
    l.lower s x = l.lower s y

/-- A literal lowers alike in two contexts when its quantity is the same in both. -/
theorem lower_congr {x y : Option Context} (hx : Context.given s x = .ok c)
    (hy : Context.given s y = .ok c') (h : lowerWith s c l = lowerWith s c' l) :
    l.lower s x = l.lower s y := by
  rw [lower_eq, lower_eq, hx, hy]
  show tryCatch (lowerWith s c l) _ = tryCatch (lowerWith s c' l) _
  rw [h]

/-- A literal without arrows does not depend on their sizes. -/
theorem ignoresArrows_of_not_isFragile (h : l.isFragile = false) : l.IgnoresArrows := by
  intro s x y c c' hx hy hc4
  refine lower_congr hx hy ?_
  have harrows : l.arrowsOf = (0, 0) := by simpa [isFragile] using h
  cases l with
  | interval name i =>
    obtain ⟨hups, hlifts⟩ := Prod.mk.inj harrows
    simp only [lowerWith, lowerValue, lowerInterval, hups, hlifts, withArrows_zero]
  | pitch name i =>
    obtain ⟨hups, hlifts⟩ := Prod.mk.inj harrows
    simp only [lowerWith, lowerValue, lowerPitch, hups, hlifts, withArrows_zero, hc4]
  | monzo w =>
    obtain ⟨hups, hlifts⟩ := Prod.mk.inj harrows
    simp only [lowerWith, lowerValue, lowerMonzo, hups, hlifts, withArrows_zero]
  | val w =>
    obtain ⟨hups, hlifts⟩ := Prod.mk.inj harrows
    simp only [lowerWith, lowerVal, hups, hlifts, withArrows_zero]
  | _ => rfl

end Literal

/-! ## Repaired copies -/

namespace Quantity

/-- The same quantity, whatever its literal. -/
def SameButLiteral : Quantity → Quantity → Prop
  | interval i, interval j => j.value = i.value ∧ j.domain = i.domain ∧ j.metadata = i.metadata
  | val v, val w => w.value = v.value ∧ w.equave = v.equave
  | _, _ => False

/-- A copy whose literal is absent, waits for a context or ignores it. -/
structure IsRepaired (q copy : Quantity) : Prop where
  same : q.SameButLiteral copy
  literal : ∀ l, copy.literal = some l → l.isAspiring = true ∨ l.IgnoresContext

/-- Intervals are not spelled as maps. -/
def IsSpelled : Quantity → Prop
  | interval i => ∀ l, i.literal = some l → l.isVal = false
  | val _ => True

theorem isRepaired_broken {q : Quantity} (h : q.IsSpelled) : q.IsRepaired q.broken := by
  cases q with
  | val v =>
    refine ⟨⟨rfl, rfl⟩, fun l hl => ?_⟩
    cases hl
  | interval i =>
    refine ⟨⟨rfl, rfl, rfl⟩, fun l hl => ?_⟩
    obtain ⟨written, hwritten, hl⟩ := Option.bind_eq_some_iff.mp
      (Option.eq_some_of_filter_eq_some hl)
    cases written with
    | interval name inflections =>
      cases hl
      exact .inl rfl
    | pitch name inflections =>
      cases hl
      exact .inl rfl
    | monzo w => cases hl
    | val w => cases h _ hwritten
    | _ =>
      cases hl
      exact .inr fun s x y c c' hx hy => Literal.lower_congr hx hy rfl

/-- What a literal lowers to is spelled by that literal. -/
theorem isSpelled_of_lower {s : Settings} {context : Option Context} {l : Literal} {q : Quantity}
    {memo memo' : CommaMemo} (h : (l.lower s context).Returns memo q memo') :
    q.IsSpelled ∧ q.literal = some l := by
  cases hval : l.isVal with
  | false =>
    obtain ⟨c, v, -, -, rfl⟩ := (Literal.lower_returns_iff hval).mp h
    refine ⟨fun l' hl' => ?_, rfl⟩
    cases hl'
    exact hval
  | true =>
    cases l with
    | val w =>
      obtain ⟨c, v, -, hv, rfl, -⟩ := Literal.lowerVal_returns_iff.mp h
      obtain ⟨⟨entries, ratio⟩, -, hv⟩ := bind_eq_ok.mp hv
      obtain ⟨equave, -, hv⟩ := bind_eq_ok.mp hv
      obtain ⟨vector, -, hv⟩ := bind_eq_ok.mp hv
      obtain ⟨value, -, hv⟩ := bind_eq_ok.mp hv
      unfold Val.make at hv
      split at hv
      · cases hv
        exact ⟨trivial, rfl⟩
      · cases hv
    | _ => cases hval

/-- Only spellings that take arrows survive a move. -/
theorem isSpelled_of_move {s : Settings} {c : Context} {a : Arrow} {q r : Quantity}
    (h : q.move s c a = .ok r) : r.IsSpelled := by
  cases q with
  | val v =>
    obtain ⟨moved, -, rfl⟩ := map_eq_ok.mp h
    trivial
  | interval i =>
    obtain ⟨moved, hmoved, rfl⟩ := map_eq_ok.mp h
    obtain ⟨value, -, hmoved⟩ := bind_eq_ok.mp hmoved
    cases hmoved
    intro l hl
    obtain ⟨written, -, hl⟩ := Option.bind_eq_some_iff.mp (Option.eq_some_of_filter_eq_some hl)
    cases written with
    | interval name inflections =>
      cases hl
      rfl
    | pitch name inflections =>
      cases hl
      rfl
    | monzo w =>
      cases hl
      rfl
    | _ => cases hl

end Quantity

/-! ## Calls -/

/-- The calls that share a registry, and changes of the settings in force between them. -/
inductive Call
  | lower (l : Literal) (context : Option Context)
  | move (a : Arrow) (q : Quantity) (context : Context)
  | configure (base : Option Settings) (fields : Fields)

namespace Call

/-- The step of a call, and the quantity that it gives if it gives one. -/
def step : Call → Step (Option Quantity)
  | lower l context => do return some (← Step.lower l context true)
  | move a q context => do return some (← Step.move a q context true)
  | configure base fields => do
    let _ ← Step.configure base fields
    return none

/-- The outcomes of calls that are made in turn, and the engine after them. -/
def run : List Call → Engine → List (Except Fault (Option Quantity)) × Engine
  | [], e => ([], e)
  | call :: calls, e =>
    let (outcome, next) := call.step.run.run e
    let (outcomes, last) := run calls next
    (outcome :: outcomes, last)

/-- What an outcome appends to the registry: nothing when the call fails, and otherwise the
quantity, unless it has no literal or one that does not depend on the sizes of arrows. -/
inductive Appends : Except Fault (Option Quantity) → List Quantity → Prop
  | failed (f : Fault) : Appends (.error f) []
  | silent : Appends (.ok none) []
  | remembered (q : Quantity) : Appends (.ok (some q)) [q]
  | stable (q : Quantity) (h : ∀ l, q.literal = some l → l.IgnoresArrows) :
    Appends (.ok (some q)) []

/-- What one call appends to the registry. -/
theorem appends_step (call : Call) (e : Engine) :
    ∃ row, Appends (call.step.run.run e).1 row ∧
      (call.step.run.run e).2.registry = e.registry ++ row ∧ ∀ q ∈ row, q.IsSpelled := by
  cases call with
  | lower l context =>
    rw [step, Step.run_map, Step.run_lower]
    rcases h : (l.lower e.settings context).run.run e.commas with ⟨outcome, commas⟩
    cases outcome with
    | error fault => exact ⟨[], .failed fault, (List.append_nil _).symm, by simp⟩
    | ok q =>
      obtain ⟨hspelled, hliteral⟩ := Quantity.isSpelled_of_lower h
      cases hfragile : l.isFragile with
      | true =>
        exact ⟨[q], .remembered q, if_pos hfragile, List.forall_mem_singleton.mpr hspelled⟩
      | false =>
        refine ⟨[], .stable q fun l' hl' => ?_, ?_, by simp⟩
        · obtain rfl : l = l' := Option.some.inj (hliteral.symm.trans hl')
          exact Literal.ignoresArrows_of_not_isFragile hfragile
        · exact (if_neg (Bool.eq_false_iff.mp hfragile)).trans (List.append_nil _).symm
  | move a q context =>
    rw [step, Step.run_map, Step.run_move]
    cases h : q.move e.settings context a with
    | error fault => exact ⟨[], .failed fault, (List.append_nil _).symm, by simp⟩
    | ok moved =>
      cases hliteral : moved.literal.isSome with
      | true =>
        exact ⟨[moved], .remembered moved, if_pos hliteral,
          List.forall_mem_singleton.mpr (Quantity.isSpelled_of_move h)⟩
      | false =>
        have hnone : moved.literal = none := Option.not_isSome_iff_eq_none.mp (by simp [hliteral])
        refine ⟨[], .stable moved fun l hl => ?_, ?_, by simp⟩
        · rw [hnone] at hl
          cases hl
        · exact (if_neg (Bool.eq_false_iff.mp hliteral)).trans (List.append_nil _).symm
  | configure base fields =>
    rw [step, Step.run_bind, Step.run_configure]
    cases Step.overridden e.settings base fields with
    | error fault => exact ⟨[], .failed fault, (List.append_nil _).symm, by simp⟩
    | ok s => exact ⟨[], .silent, (List.append_nil _).symm, by simp⟩

/-- What a run appends to the registry, call by call. -/
theorem appends_run (calls : List Call) (e : Engine) :
    ∃ rows, List.Forall₂ Appends (run calls e).1 rows ∧
      (run calls e).2.registry = e.registry ++ rows.flatten ∧
        ∀ q ∈ rows.flatten, q.IsSpelled := by
  induction calls generalizing e with
  | nil => exact ⟨[], .nil, (List.append_nil _).symm, by simp⟩
  | cons call calls ih =>
    obtain ⟨row, hrow, hregistry, hspelled⟩ := call.appends_step e
    obtain ⟨rows, hrows, hlast, hrest⟩ := ih (call.step.run.run e).2
    refine ⟨row :: rows, .cons hrow hrows, ?_, ?_⟩
    · rw [List.flatten_cons, ← List.append_assoc, ← hregistry]
      exact hlast
    · intro q hq
      rw [List.flatten_cons, List.mem_append] at hq
      exact hq.elim (hspelled q) (hrest q)

/-- Calls that share an empty registry append their results to it in order. A call that fails
appends nothing, and a result that is not appended has no literal or one that does not depend on
the sizes of arrows. Every value appended is then repaired once, in the same order, by a copy
whose literal is absent, waits for a context or ignores it, and the registry is empty again. -/
theorem run_takeBroken (calls : List Call) (e : Engine) :
    let (outcomes, last) := run calls { e with registry := [] }
    ∃ rows, List.Forall₂ Appends outcomes rows ∧ last.registry = rows.flatten ∧
      ∃ copies, Step.takeBroken.run.run last = (.ok copies, { last with registry := [] }) ∧
        List.Forall₂ Quantity.IsRepaired last.registry copies := by
  obtain ⟨rows, hrows, hregistry, hspelled⟩ := appends_run calls { e with registry := [] }
  refine ⟨rows, hrows, hregistry, _, rfl, ?_⟩
  rw [Registry.broken, List.forall₂_map_right_iff, List.forall₂_same, hregistry]
  exact fun q hq => Quantity.isRepaired_broken (hspelled q hq)

end Call

end Intonation
