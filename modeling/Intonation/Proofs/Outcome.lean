import Mathlib.Tactic

/-!
# Outcomes of computations

A computation that may fail is peeled apart step by step: when the whole of it returns, so does
each of its parts. What a computation returns, and how it can fail, follows from what its steps return
and how they can fail. Two runs of one computation on related arguments return related results,
unless one of them fails.

## Main definitions

* `Meets`: what an outcome is, returned or failed
* `Ensures`: what a computation returns, if it does
* `Both`: two outcomes are related when neither is a failure

## Main statements

* `bind_eq_ok`, `map_eq_ok`: the parts of a computation that returns
* `Meets.bind`: one step after another
* `Both.bind`: related steps of two runs
-/

namespace Intonation

variable {ε α β γ δ : Type}

theorem bind_eq_ok {x : Except ε α} {f : α → Except ε β} {b : β} :
    (x >>= f) = .ok b ↔ ∃ a, x = .ok a ∧ f a = .ok b := by
  cases x with
  | error e => simp [bind, Except.bind]
  | ok a => simp [bind, Except.bind]

theorem map_eq_ok {x : Except ε α} {f : α → β} {b : β} :
    x.map f = .ok b ↔ ∃ a, x = .ok a ∧ f a = b := by
  cases x with
  | error e => simp [Except.map]
  | ok a => simp [Except.map]

theorem map_eq_ok_of_injective {x : Except ε α} {f : α → β} (hf : f.Injective) {a : α} :
    x.map f = .ok (f a) ↔ x = .ok a := by
  rw [map_eq_ok]
  exact ⟨fun ⟨b, hb, heq⟩ => hf heq ▸ hb, fun ha => ⟨a, ha, rfl⟩⟩

theorem pure_eq_ok {a b : α} : (pure a : Except ε α) = .ok b ↔ a = b := by
  simp [pure, Except.pure]

theorem exists_of_isOk {x : Except ε α} (h : x.isOk) : ∃ a, x = .ok a := by
  cases x with
  | error e => cases h
  | ok a => exact ⟨a, rfl⟩

/-- An outcome that returns as it is meant to, or fails in a way that it may. -/
def Meets (P : α → Prop) (F : ε → Prop) : Except ε α → Prop
  | .ok a => P a
  | .error e => F e

namespace Meets

variable {P R : α → Prop} {Q : β → Prop} {F : ε → Prop} {x : Except ε α}

theorem bind {f : α → Except ε β} (h : Meets P F x) (hf : ∀ a, P a → Meets Q F (f a)) :
    Meets Q F (x >>= f) := by
  cases x with
  | error e => exact h
  | ok a => exact hf a h

theorem map {f : α → β} (h : Meets P F x) (hf : ∀ a, P a → Q (f a)) : Meets Q F (x.map f) := by
  cases x with
  | error e => exact h
  | ok a => exact hf a h

/-- What else holds of a result, when there is one. -/
theorem and_of_ok (h : Meets P F x) (hR : ∀ a, x = .ok a → R a) :
    Meets (fun a => P a ∧ R a) F x := by
  cases x with
  | error e => exact h
  | ok a => exact ⟨h, hR a rfl⟩

theorem mono (h : Meets P F x) (hP : ∀ a, P a → R a) : Meets R F x := by
  cases x with
  | error e => exact h
  | ok a => exact hP a h

/-- Whatever is returned. -/
theorem any (h : Meets P F x) : Meets (fun _ => True) F x := h.mono fun _ _ => trivial

theorem ite {c : Prop} [Decidable c] {y : Except ε α} (h : Meets P F x) (h' : Meets P F y) :
    Meets P F (if c then x else y) := by
  split
  · exact h
  · exact h'

/-- One step for each member of a list. -/
theorem mapM {f : α → Except ε β} {xs : List α} (h : ∀ a ∈ xs, Meets Q F (f a)) :
    Meets (fun bs => ∀ b ∈ bs, Q b) F (xs.mapM f) := by
  induction xs with
  | nil =>
    rw [List.mapM_nil]
    exact fun b hb => by cases hb
  | cons a xs ih =>
    rw [List.forall_mem_cons] at h
    rw [List.mapM_cons]
    exact h.1.bind fun b hb => (ih h.2).bind fun bs hbs => List.forall_mem_cons.mpr ⟨hb, hbs⟩

end Meets

/-- What a computation returns, if it does. -/
def Ensures (P : α → Prop) (x : Except ε α) : Prop := Meets P (fun _ => True) x

namespace Ensures

variable {P : α → Prop} {Q : β → Prop} {x : Except ε α}

theorem iff_forall : Ensures P x ↔ ∀ a, x = .ok a → P a := by
  cases x with
  | error e => exact iff_of_true trivial fun a h => by cases h
  | ok a => exact ⟨fun h b hb => by cases hb; exact h, fun h => h a rfl⟩

theorem bind {f : α → Except ε β} (h : Ensures P x) (hf : ∀ a, P a → Ensures Q (f a)) :
    Ensures Q (x >>= f) := Meets.bind h hf

theorem map {f : α → β} (h : Ensures P x) (hf : ∀ a, P a → Q (f a)) : Ensures Q (x.map f) :=
  Meets.map h hf

/-- Whatever the first step returns. -/
theorem bind_any {f : α → Except ε β} (hf : ∀ a, Ensures Q (f a)) : Ensures Q (x >>= f) :=
  bind (P := fun _ => True) (iff_forall.mpr fun _ _ => trivial) fun a _ => hf a

end Ensures

/-- Two outcomes are related when neither is a failure. -/
def Both (R : α → β → Prop) (x : Except ε α) (y : Except ε β) : Prop :=
  ∀ a, x = .ok a → ∀ b, y = .ok b → R a b

namespace Both

variable {R : α → β → Prop} {S : γ → δ → Prop}

theorem ok {a : α} {b : β} (h : R a b) : Both (ε := ε) R (.ok a) (.ok b) := by
  intro a' ha b' hb
  cases ha
  cases hb
  exact h

theorem error_left {e : ε} {y : Except ε β} : Both R (.error e) y := by
  intro a ha
  cases ha

theorem diag {T : α → α → Prop} {x : Except ε α} (h : ∀ a, x = .ok a → T a a) : Both T x x := by
  intro a ha b hb
  have hab := hb
  rw [ha] at hab
  cases hab
  exact h a ha

/-- Related outcomes of the first step lead to related outcomes of the second one. -/
theorem bind {x : Except ε α} {y : Except ε β} {f : α → Except ε γ} {g : β → Except ε δ}
    (h : Both R x y) (hfg : ∀ a b, R a b → Both S (f a) (g b)) :
    Both S (x >>= f) (y >>= g) := by
  intro c hc d hd
  obtain ⟨a, ha, hfa⟩ := bind_eq_ok.mp hc
  obtain ⟨b, hb, hgb⟩ := bind_eq_ok.mp hd
  exact hfg a b (h a ha b hb) c hfa d hgb

theorem map {x : Except ε α} {y : Except ε β} {f : α → γ} {g : β → δ} (h : Both R x y)
    (hfg : ∀ a b, R a b → S (f a) (g b)) : Both S (x.map f) (y.map g) := by
  intro c hc d hd
  obtain ⟨a, ha, rfl⟩ := map_eq_ok.mp hc
  obtain ⟨b, hb, rfl⟩ := map_eq_ok.mp hd
  exact hfg a b (h a ha b hb)

theorem ite {c c' : Prop} [Decidable c] [Decidable c'] (hc : c ↔ c') {x x' : Except ε α}
    {y y' : Except ε β} (h : c → Both R x y) (h' : ¬ c → Both R x' y') :
    Both R (if c then x else x') (if c' then y else y') := by
  by_cases h0 : c
  · rw [if_pos h0, if_pos (hc.mp h0)]
    exact h h0
  · rw [if_neg h0, if_neg (mt hc.mpr h0)]
    exact h' h0

end Both

end Intonation
