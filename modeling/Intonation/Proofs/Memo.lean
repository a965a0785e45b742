import Intonation.FJS.Comma
import Intonation.Proofs.Outcome

/-!
# Running computations that look up commas

A run starts with the commas found so far and ends with an outcome and the commas found then.
The outcome of a computation that looks nothing up does not depend on them.

## Main definitions

* `Memoized.Returns`, `Memoized.Fails`: a run that returns, and one that fails

## Main statements

* `Memoized.returns_bind`, `Memoized.returns_ofExcept`: the runs of a computation
* `Memoized.fails_bind`: a run that fails once its first step has returned
* `Memoized.run_tryCatch`: runs whose faults are handled
* `Memoized.returns_tryCatch_throw`, `Memoized.fails_tryCatch_throw`: runs whose faults are replaced
-/

namespace Intonation.Memoized

variable {α β : Type}

/-- A run from some commas returns a result and ends with other commas. -/
def Returns (x : Memoized α) (memo : CommaMemo) (a : α) (memo' : CommaMemo) : Prop :=
  x.run.run memo = (.ok a, memo')

/-- A run from some commas fails. -/
def Fails (x : Memoized α) (memo : CommaMemo) (fault : Fault) : Prop :=
  ∃ memo', x.run.run memo = (.error fault, memo')

variable {x : Memoized α} {f : α → Memoized β} {memo memo' : CommaMemo} {a : α} {b : β}
  {fault : Fault}

theorem run_bind : (x >>= f).run.run memo =
    match x.run.run memo with
    | (.ok a, memo') => (f a).run.run memo'
    | (.error fault, memo') => (.error fault, memo') := by
  show (ExceptT.bind x f).run.run memo = _
  simp only [ExceptT.bind, ExceptT.mk, ExceptT.run, StateT.run, bind, StateT.bind]
  rcases h : x memo with ⟨outcome, rest⟩
  cases outcome <;> rfl

theorem returns_bind : (x >>= f).Returns memo b memo' ↔
    ∃ a rest, x.Returns memo a rest ∧ (f a).Returns rest b memo' := by
  unfold Returns
  rw [run_bind]
  rcases h : x.run.run memo with ⟨outcome, rest⟩
  cases outcome with
  | error fault =>
    constructor
    · intro hb
      cases hb
    · rintro ⟨a, rest', heq, -⟩
      cases heq
  | ok a =>
    constructor
    · exact fun hb => ⟨a, rest, rfl, hb⟩
    · rintro ⟨a', rest', heq, hb⟩
      cases heq
      exact hb

theorem returns_ofExcept {result : Except Fault α} :
    (ofExcept result).Returns memo a memo' ↔ result = .ok a ∧ memo = memo' := by
  show (result, memo) = (Except.ok a, memo') ↔ _
  rw [Prod.mk.injEq]

theorem returns_pure {a' : α} :
    (pure a' : Memoized α).Returns memo a memo' ↔ a' = a ∧ memo = memo' := by
  show (Except.ok a', memo) = (Except.ok a, memo') ↔ _
  rw [Prod.mk.injEq, Except.ok.injEq]

theorem returns_map {g : α → β} :
    (g <$> x).Returns memo b memo' ↔ ∃ a, x.Returns memo a memo' ∧ g a = b := by
  rw [map_eq_pure_bind, returns_bind]
  constructor
  · rintro ⟨a, rest, ha, hb⟩
    obtain ⟨hg, rfl⟩ := returns_pure.mp hb
    exact ⟨a, ha, hg⟩
  · rintro ⟨a, ha, hg⟩
    exact ⟨a, memo', ha, returns_pure.mpr ⟨hg, rfl⟩⟩

theorem run_tryCatch {handle : Fault → Memoized α} : (tryCatch x handle).run.run memo =
    match x.run.run memo with
    | (.ok a, memo') => (.ok a, memo')
    | (.error fault, memo') => (handle fault).run.run memo' := by
  show (ExceptT.tryCatch x handle).run.run memo = _
  simp only [ExceptT.tryCatch, ExceptT.mk, ExceptT.run, StateT.run, bind, StateT.bind]
  rcases h : x memo with ⟨outcome, rest⟩
  cases outcome <;> rfl

/-- A computation whose faults are replaced by others returns when it would have returned. -/
theorem returns_tryCatch_throw {rename : Fault → Fault} :
    (tryCatch x fun fault => throw (rename fault)).Returns memo a memo' ↔
      x.Returns memo a memo' := by
  unfold Returns
  rw [run_tryCatch]
  rcases h : x.run.run memo with ⟨outcome, rest⟩
  cases outcome with
  | ok a => rfl
  | error fault =>
    constructor
    · intro hb
      have h1 : ((.error (rename fault) : Except Fault α), rest) = (.ok a, memo') := hb
      cases h1
    · intro hb
      cases hb

/-! ## Runs that fail -/

theorem fails_ofExcept {result : Except Fault α} (h : result = .error fault) :
    (ofExcept result).Fails memo fault := by
  subst h
  exact ⟨memo, rfl⟩

theorem fails_bind_left (h : x.Fails memo fault) : (x >>= f).Fails memo fault := by
  obtain ⟨rest, hx⟩ := h
  exact ⟨rest, by rw [run_bind, hx]⟩

/-- A run fails when it fails once its first step has returned. -/
theorem fails_bind (hx : x.Returns memo a memo') (h : (f a).Fails memo' fault) :
    (x >>= f).Fails memo fault := by
  obtain ⟨rest, hf⟩ := h
  refine ⟨rest, ?_⟩
  rw [run_bind, show x.run.run memo = _ from hx]
  exact hf

theorem fails_map {g : α → β} (h : x.Fails memo fault) : (g <$> x).Fails memo fault := by
  rw [map_eq_pure_bind]
  exact fails_bind_left h

theorem fails_tryCatch_throw {rename : Fault → Fault} (h : x.Fails memo fault) :
    (tryCatch x fun fault => throw (rename fault)).Fails memo (rename fault) := by
  obtain ⟨rest, hx⟩ := h
  refine ⟨rest, ?_⟩
  rw [run_tryCatch, hx]
  rfl

end Intonation.Memoized
