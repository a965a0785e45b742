import Intonation.Literal.Lowering
import Intonation.Proofs.Memo
import Intonation.Proofs.Monzo.Bounds

/-!
# Lowering step by step

Lowering a literal finds a context, takes the value of the literal in it and keeps the literal
beside the value. Only named intervals and pitches look commas up.

## Main definitions

* `Context.given`: the context at hand, or the one that stands for a missing one
* `Literal.isVal`: tuning maps, which lower to vals
* `Literal.Overflows`: a literal whose lowering fails by overflow

## Main statements

* `lower_returns_iff`: what lowering a literal of an interval returns
* `overflows_of_lowerValue`: overflows while lowering are malformed literals
* `lowerVal_returns_iff`: what lowering a tuning map returns
-/

namespace Intonation

/-- The context at hand, or the one that stands for a missing one. -/
def Context.given (s : Settings) : Option Context → Except Fault Context
  | some c => .ok c
  | none => Context.default s

namespace Literal

/-- Tuning maps lower to vals, all other literals to intervals. -/
def isVal : Literal → Bool
  | val _ => true
  | _ => false

variable {s : Settings} {context : Option Context} {l : Literal} {memo memo' : CommaMemo}
  {q : Quantity}

theorem lower_eq : lower s context l = (do
    let c ← Memoized.ofExcept (Context.given s context)
    tryCatch (lowerWith s c l) fun fault => throw (loweringFault fault)) := by
  cases context <;> rfl

theorem lowerWith_eq {c : Context} (h : l.isVal = false) : lowerWith s c l = (do
    let value ← lowerValue s c l
    return .interval { value, domain := l.domain, literal := some l }) := by
  cases l <;> first | rfl | cases h

/-- Lowering a literal of an interval gives its value in a context, with the literal. -/
theorem lower_returns_iff (h : l.isVal = false) :
    (lower s context l).Returns memo q memo' ↔ ∃ c v, Context.given s context = .ok c ∧
      (lowerValue s c l).Returns memo v memo' ∧
      q = .interval { value := v, domain := l.domain, literal := some l } := by
  rw [lower_eq, Memoized.returns_bind]
  constructor
  · rintro ⟨c, rest, hgiven, hq⟩
    obtain ⟨hc, rfl⟩ := Memoized.returns_ofExcept.mp hgiven
    rw [Memoized.returns_tryCatch_throw, lowerWith_eq h, Memoized.returns_bind] at hq
    obtain ⟨v, rest, hv, hq⟩ := hq
    obtain ⟨rfl, rfl⟩ := Memoized.returns_pure.mp hq
    exact ⟨c, v, hc, hv, rfl⟩
  · rintro ⟨c, v, hc, hv, rfl⟩
    refine ⟨c, memo, Memoized.returns_ofExcept.mpr ⟨hc, rfl⟩, ?_⟩
    rw [Memoized.returns_tryCatch_throw, lowerWith_eq h, Memoized.returns_bind]
    exact ⟨v, memo', hv, Memoized.returns_pure.mpr ⟨rfl, rfl⟩⟩

/-- Lowering a literal fails by overflow, which makes it a malformed literal. -/
structure Overflows (l : Literal) (s : Settings) (context : Option Context) (memo : CommaMemo) :
    Prop where
  overflow : ∃ c fault, Context.given s context = .ok c ∧ fault.family = .overflow ∧
    (lowerWith s c l).Fails memo fault
  malformed : (lower s context l).Fails memo .literalOutOfRange

theorem overflows_of_lowerValue (h : l.isVal = false) {c : Context}
    (hc : Context.given s context = .ok c) {fault : Fault} (hfault : fault.family = .overflow)
    (hv : (lowerValue s c l).Fails memo fault) : l.Overflows s context memo := by
  have hwith : (lowerWith s c l).Fails memo fault := by
    rw [lowerWith_eq h]
    exact Memoized.fails_bind_left hv
  have hrename : loweringFault fault = .literalOutOfRange := if_pos hfault
  refine ⟨⟨c, fault, hc, hfault, hwith⟩, ?_⟩
  rw [lower_eq, ← hrename]
  exact Memoized.fails_bind (Memoized.returns_ofExcept.mpr ⟨hc, rfl⟩)
    (Memoized.fails_tryCatch_throw hwith)

/-- Lowering a tuning map gives its val in a context. -/
theorem lowerVal_returns_iff {components : Components} :
    (lower s context (val components)).Returns memo q memo' ↔ ∃ c v,
      Context.given s context = .ok c ∧ lowerVal s c (val components) components = .ok v ∧
      q = .val v ∧ memo = memo' := by
  rw [lower_eq, Memoized.returns_bind]
  constructor
  · rintro ⟨c, rest, hgiven, hq⟩
    obtain ⟨hc, rfl⟩ := Memoized.returns_ofExcept.mp hgiven
    rw [Memoized.returns_tryCatch_throw] at hq
    obtain ⟨hq, hmemo⟩ := Memoized.returns_ofExcept.mp hq
    obtain ⟨v, hv, rfl⟩ := map_eq_ok.mp hq
    exact ⟨c, v, hc, hv, rfl, hmemo⟩
  · rintro ⟨c, v, hc, hv, rfl, rfl⟩
    refine ⟨c, memo, Memoized.returns_ofExcept.mpr ⟨hc, rfl⟩, ?_⟩
    rw [Memoized.returns_tryCatch_throw]
    exact Memoized.returns_ofExcept.mpr ⟨map_eq_ok.mpr ⟨v, hv, rfl⟩, rfl⟩

end Literal

/-- Once any value is within the bounds, unity is, and a missing context has a stand-in. -/
theorem Context.exists_given {s : Settings} (h : 1 ≤ s.absurdExponent) (context : Option Context) :
    ∃ c, Context.given s context = .ok c := by
  cases context with
  | some c => exact ⟨c, rfl⟩
  | none =>
    refine ⟨_, bind_eq_ok.mpr ⟨_, Monzo.unity_eq h _, rfl⟩⟩

end Intonation
