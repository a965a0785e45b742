import Intonation.Proofs.Monzo.Harmonic
import Intonation.Proofs.Ratio.Decimal
import Intonation.Proofs.Value.Commutativity

/-!
# Harmonic sums of intervals

A harmonic difference undoes a harmonic sum, of linear ratios as well as of logarithmic intervals in
any two directions, and harmonic sums are commutative. The literals of the operands are combined on
the way, which takes cents whose digits can be read.

## Main definitions

* `Literal.Legible`: a literal that is not of unreadable cents
* `Interval.harmonic`: what harmonic sums and differences share
* `Interval.Combinable`: intervals of one domain whose literals are legible

## Main statements

* `Literal.exists_lensAdd`, `Literal.exists_lensSub`: literals of harmonic sums and differences
* `Interval.lensAdd_comm`: harmonic sums are commutative
* `Interval.lensSub_lensAdd`: harmonic differences undo harmonic sums
-/

namespace Intonation
open Monzo Intonation.Prime

variable {s : Settings} {wide : Prop}

/-! ## Literals -/

namespace Literal

variable {a b l : Literal} {x y : Option Literal} {op : ℚ → ℚ → ℚ}

/-- Cents are written in digits that can be read. -/
def Legible (l : Literal) : Prop := ∃ q, l.centsRatio = .ok q

/-- A literal is legible if there is one. -/
def Legible? (x : Option Literal) : Prop := ∀ l ∈ x, l.Legible

theorem legible_steps (s : Steps) : (steps s).Legible := ⟨none, rfl⟩

theorem legible_ofRatio (q : ℚ) : (ofRatio q).Legible := by
  unfold ofRatio
  split <;> exact ⟨none, rfl⟩

theorem legible?_ofCents? {q : ℚ} : Legible? (ofCents? q) := by
  intro l hl
  obtain ⟨d, rfl, hd⟩ := exists_of_ofCents? hl
  exact ⟨some q, by rw [centsRatio, hd]; rfl⟩

theorem legible?_throughValues {op : Monzo → Monzo → Except Fault Value} :
    Legible? (throughValues s op a b) := by
  intro l hl
  unfold throughValues at hl
  split at hl
  · obtain ⟨q, -, rfl⟩ := Option.map_eq_some_iff.mp hl
    exact legible_ofRatio q
  · cases hl

theorem Legible?.within (h : Legible? x) (d : Domain) : Legible? (Literal.within d x) :=
  fun l hl => h l (Option.filter_eq_some_iff.mp hl).1

theorem Legible?.some (h : l.Legible) : Legible? (some l) := fun _ hl => Option.some.inj hl ▸ h

theorem Legible?.none : Legible? none := fun _ hl => by cases hl

theorem exists_lensSizes (op : ℚ → ℚ → ℚ) (ha : a.Legible) (hb : b.Legible) :
    ∃ x, lensSizes op a b = .ok x ∧ Legible? x := by
  obtain ⟨p, hp⟩ := ha
  obtain ⟨q, hq⟩ := hb
  unfold lensSizes
  split
  · refine ⟨_, rfl, ?_⟩
    split
    · exact .none
    · split
      · split
        · exact .some (legible_steps _)
        · split
          · exact .some (legible_steps _)
          · intro l hl
            obtain ⟨z, -, rfl⟩ := Option.map_eq_some_iff.mp hl
            exact legible_steps _
      · exact .none
  · rw [hp, hq]
    cases p with
    | none => exact ⟨none, rfl, .none⟩
    | some p =>
      cases q with
      | none => exact ⟨none, rfl, .none⟩
      | some q =>
        refine ⟨_, rfl, ?_⟩
        split
        · exact .some ⟨_, hp⟩
        · split
          · exact .some ⟨_, hq⟩
          · intro l hl
            obtain ⟨z, -, hl⟩ := Option.bind_eq_some_iff.mp hl
            exact legible?_ofCents? l hl

theorem exists_lensAdd (ha : a.Legible) (hb : b.Legible) :
    ∃ x, Literal.lensAdd s a b = .ok x ∧ Legible? x := by
  unfold Literal.lensAdd
  split
  · exact ⟨_, rfl, legible?_throughValues⟩
  · exact exists_lensSizes _ ha hb

theorem exists_lensSub (ha : a.Legible) (hb : b.Legible) :
    ∃ x, Literal.lensSub s a b = .ok x ∧ Legible? x := by
  unfold Literal.lensSub
  split
  · exact ⟨_, rfl, legible?_throughValues⟩
  · exact exists_lensSizes _ ha hb

theorem exists_combine {op : Literal → Literal → Except Fault (Option Literal)}
    (hop : ∀ a b : Literal, a.Legible → b.Legible → ∃ z, op a b = .ok z ∧ Legible? z)
    (hx : Legible? x) (hy : Legible? y) : ∃ z, combine op x y = .ok z ∧ Legible? z := by
  unfold combine
  split
  · exact hop _ _ (hx _ rfl) (hy _ rfl)
  · exact ⟨_, rfl, Legible?.none⟩

end Literal

/-! ## Intervals -/

namespace Interval

variable {a b c : Interval}

/-- The value of a harmonic combination in a domain. -/
def lensValue (s : Settings) (onRatios op : Value → Value → Except Fault Value) (d : Domain)
    (v w : Value) : Except Fault Value :=
  if d = .linear then onRatios v w else Value.lens s op v w

/-- What harmonic sums and differences share. -/
def harmonic (s : Settings) (operation : String)
    (onLiterals : Literal → Literal → Except Fault (Option Literal))
    (onRatios op : Value → Value → Except Fault Value) (a b : Interval) :
    Except Fault Interval := do
  requireDomains operation a.domain b.domain
  let literal ← Literal.combine onLiterals a.literal b.literal
  let value ← lensValue s onRatios op a.domain a.value b.value
  make value a.domain literal (infected a b)

/-- Intervals of one domain whose literals are legible. -/
structure Combinable (a b : Interval) : Prop where
  domain_eq : b.domain = a.domain
  domain_ne : a.domain ≠ .cologarithmic
  left : Literal.Legible? a.literal
  right : Literal.Legible? b.literal

theorem Combinable.symm (h : Combinable a b) : Combinable b a :=
  ⟨h.domain_eq.symm, h.domain_eq ▸ h.domain_ne, h.right, h.left⟩

/-- The literals are combined, and the values decide on the outcome. -/
theorem harmonic_eq {operation : String}
    {onLiterals : Literal → Literal → Except Fault (Option Literal)}
    (hliterals : ∀ x y : Literal, x.Legible → y.Legible →
      ∃ z, onLiterals x y = .ok z ∧ Literal.Legible? z)
    (onRatios op : Value → Value → Except Fault Value) (h : Combinable a b) :
    ∃ l, Literal.Legible? l ∧ harmonic s operation onLiterals onRatios op a b =
      (lensValue s onRatios op a.domain a.value b.value).map fun value =>
        { value, domain := a.domain, literal := l, metadata := infected a b } := by
  obtain ⟨z, hz, hlegible⟩ := Literal.exists_combine hliterals h.left h.right
  refine ⟨Literal.within a.domain z, hlegible.within _, ?_⟩
  unfold harmonic requireDomains
  rw [if_pos h.domain_eq.symm, hz]
  show (lensValue s onRatios op a.domain a.value b.value >>= _) = _
  cases lensValue s onRatios op a.domain a.value b.value with
  | error f => rfl
  | ok v => exact if_neg h.domain_ne

section
variable (s) (h : Combinable a b)
include h

theorem exists_lensAdd_eq : ∃ l, Literal.Legible? l ∧ a.lensAdd s b =
    (lensValue s (Value.lensAdd s) (Value.mul s) a.domain a.value b.value).map fun value =>
      { value, domain := a.domain, literal := l, metadata := infected a b } := by
  have heq : a.lensAdd s b =
      harmonic s "harmonic addition" (Literal.lensAdd s) (Value.lensAdd s) (Value.mul s) a b := by
    by_cases hdomain : a.domain = .linear <;>
      simp only [lensAdd, harmonic, lensValue, hdomain, if_true, if_false]
  rw [heq]
  exact harmonic_eq (fun _ _ => Literal.exists_lensAdd) _ _ h

theorem exists_lensSub_eq : ∃ l, Literal.Legible? l ∧ a.lensSub s b =
    (lensValue s (Value.lensSub s) (Value.div s) a.domain a.value b.value).map fun value =>
      { value, domain := a.domain, literal := l, metadata := infected a b } := by
  have heq : a.lensSub s b = harmonic s "harmonic subtraction" (Literal.lensSub s)
      (Value.lensSub s) (Value.div s) a b := by
    by_cases hdomain : a.domain = .linear <;>
      simp only [lensSub, harmonic, lensValue, hdomain, if_true, if_false]
  rw [heq]
  exact harmonic_eq (fun _ _ => Literal.exists_lensSub) _ _ h

end

/-- What harmonic differences undo for values they undo for intervals. -/
theorem barring_undone (h : Combinable a b) {P : Value → Prop}
    (hvalues : Barring wide
      (fun v => Barring wide P
        (lensValue s (Value.lensSub s) (Value.div s) a.domain v b.value))
      (lensValue s (Value.lensAdd s) (Value.mul s) a.domain a.value b.value)) :
    Barring wide (fun c => Barring wide (fun d => d.domain = a.domain ∧ P d.value)
      (c.lensSub s b)) (a.lensAdd s b) := by
  obtain ⟨l, hl, heq⟩ := exists_lensAdd_eq s h
  rw [heq]
  refine hvalues.map fun v hback => ?_
  obtain ⟨l', -, heq'⟩ := exists_lensSub_eq s
    (⟨h.domain_eq, h.domain_ne, hl, h.right⟩ : Combinable
      { value := v, domain := a.domain, literal := l, metadata := infected a b } b)
  rw [heq']
  exact hback.map fun w hw => ⟨rfl, hw⟩

/-- Harmonic sums are commutative, unless they are logarithmic and the first operand is
absorbing. -/
theorem lensAdd_comm (h : Combinable a b)
    (h0 : a.domain = .linear ∨ a.value.dot s a.value ≠ .ok 0) (hc : a.lensAdd s b = .ok c) :
    ∃ d, b.lensAdd s a = .ok d ∧ d.value = c.value := by
  obtain ⟨l, -, heq⟩ := exists_lensAdd_eq s h
  obtain ⟨l', -, heq'⟩ := exists_lensAdd_eq s h.symm
  rw [heq] at hc
  obtain ⟨v, hv, rfl⟩ := map_eq_ok.mp hc
  have hswapped : lensValue s (Value.lensAdd s) (Value.mul s) b.domain b.value a.value = .ok v := by
    rw [h.domain_eq]
    unfold lensValue at hv ⊢
    by_cases hdomain : a.domain = .linear
    · rw [if_pos hdomain] at hv ⊢
      exact Value.lensAdd_comm hv
    · rw [if_neg hdomain] at hv ⊢
      exact Value.lens_comm (h0.resolve_left hdomain) hv
  rw [hswapped] at heq'
  exact ⟨_, heq', rfl⟩

end Interval

end Intonation
