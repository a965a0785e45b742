import Intonation.Proofs.Double.Finite
import Intonation.Proofs.Interval.Mapping
import Intonation.Proofs.Monzo.Inversion

/-!
# Inverses are duals

The inverse of a logarithmic interval is a val that maps it to a single step, and the inverse of a
val is an interval that it maps to a single step. Inverting twice gives the value back. All this
fails by overflow alone, for values whose residual can be folded; no other values have an inverse.

## Main definitions

* `Interval.CountsSteps`: a number of steps
* `Quantity.Dual`: an interval and a val that is measured against it, or a val and an interval

## Main statements

* `Interval.barring_dotVal`: the number of steps that a val maps an interval to
* `Quantity.inverse_duality`: inverses
-/

namespace Intonation
open Monzo

variable {s t : Settings} {m n g : Monzo} {es fs : List ℚ} {r : ℚ}

/-! ## Mapping to steps -/

namespace Interval

variable {i j : Interval} {v : Val}

/-- A number of steps. -/
structure CountsSteps (j : Interval) (steps : ℚ) : Prop where
  domain : j.domain = .linear
  time : j.value.time = 0
  toRatio : j.value.toRatio = .ok steps

theorem barring_ofSteps (hs : s.Valid) (steps : ℚ) (metadata : Metadata) :
    Barring False (·.CountsSteps steps) (ofSteps s steps metadata) :=
  (IsRatio.ofRatioOver (.inl hs.components_le) steps).bind fun _ hm =>
    ⟨rfl, hm.time, hm.toRatio⟩

theorem barring_countingUps (hn : n.Directed) : Barring False
    (fun v => ∃ map, v = .exact map ∧ map.parts = n.parts ∧ map.cents.isNaN = false)
    (countingUps s (.exact n)) := by
  have hnan : (n.cents + 1).isNaN = false :=
    Double.not_isNaN_add (Double.isFinite_of_beq_zero hn.uncorrected) (by decide)
  obtain ⟨t, hbounded⟩ := hn.bounded
  refine (barring_checked_of_not_isNaN (m := { n with cents := n.cents + 1 }) False
    (vanish_of_bounded (m := n) hbounded) hnan).map ?_
  rintro _ rfl
  exact ⟨_, rfl, rfl, hnan⟩

/-- A val maps an interval to the pairing of their vectors. -/
theorem barring_dotVal (hs : s.Valid) (hi : i.value = .exact m) (hv : v.value = .exact n)
    (hm : m.Directed) (hmf : m.Foldable) (hn : n.Directed) (hnf : n.Foldable)
    (hes : m.Unfolds es) (hfs : n.Unfolds fs) :
    Barring False (·.CountsSteps (pairing es fs)) (i.dotVal s v) := by
  unfold dotVal
  rw [hi, hv]
  refine (barring_countingUps hn).bind ?_
  rintro _ ⟨map, rfl, hparts, hnan⟩
  have hfolded : Barring False (fun _ => True) (map.folded s) := by
    have hresidual : map.residual = n.residual := congrArg Prod.snd hparts
    have hcomponents : map.components = n.components := congrArg (·.1.length) hparts
    refine Foldable.barring_folded (hresidual ▸ hn.positive) (hresidual ▸ hn.overTable) ?_ hnan
    unfold Foldable
    rw [hresidual, hcomponents]
    exact hnf
  refine (((barring_dot ((hm.barring_folded hmf).mono fun _ _ => trivial) hfolded
    (.inl hm.uncorrected)).and_of_ok fun r hr => hes.dot_eq (hfs.of_parts_eq hparts) hm.scalar
      hm.uncorrected hr).bind ?_ : _)
  rintro _ ⟨-, rfl⟩
  exact barring_ofSteps hs _ _

/-- The inverse of an interval that is not linear. -/
theorem inverse_of_ne (h : i.domain ≠ .linear) : i.inverse s = (do
    let value ← i.value.geometricInverse s
    let v ← Val.make value i.value (i.literal.bind Literal.invert)
    return .val v) :=
  if_neg h

end Interval

/-! ## Inverses -/

namespace Quantity

variable {q : Quantity}

/-- A val that is measured against an interval, or a logarithmic interval for a val. -/
def Dual : Quantity → Quantity → Prop
  | interval i, val v => v.equave = i.value
  | val _, interval i => i.domain = .logarithmic
  | _, _ => False

theorem Dual.domain_ne {r : Quantity} (h : q.Dual r) : r.domain ≠ .linear := by
  cases q with
  | interval i =>
    cases r with
    | interval j => exact h.elim
    | val w => exact (by decide : Domain.cologarithmic ≠ .linear)
  | val v =>
    cases r with
    | interval j =>
      rw [show (interval j).domain = .logarithmic from h]
      decide
    | val w => exact h.elim

/-- The inverse of a quantity has the geometric inverse of its value. -/
theorem barring_inverse {P : Monzo → Prop} (hq : q.value = .exact m) (hdomain : q.domain ≠ .linear)
    (htime : m.time = 0) (h : Barring False (fun g => g.time = 0 ∧ P g) (m.geometricInverse s)) :
    Barring False (fun r => q.Dual r ∧ ∃ g, r.value = .exact g ∧ P g) (q.inverse s) := by
  have hvalue : Barring False (fun v => ∃ g : Monzo, v = .exact g ∧ g.time = 0 ∧ P g)
      (q.value.geometricInverse s) := by
    rw [hq]
    exact h.map fun g hg => ⟨g, rfl, hg⟩
  cases q with
  | interval i =>
    replace hq : i.value = .exact m := hq
    show Barring _ _ (i.inverse s)
    rw [Interval.inverse_of_ne hdomain]
    refine hvalue.bind ?_
    rintro _ ⟨g, rfl, htimeg, hg⟩
    have hscalar : ((Value.exact g).isScalar && i.value.isScalar) = true := by
      rw [hq]
      exact Bool.and_eq_true_iff.mpr ⟨decide_eq_true htimeg, decide_eq_true htime⟩
    rw [Val.make, if_pos hscalar]
    exact ⟨rfl, g, rfl, hg⟩
  | val v =>
    refine Barring.map (P := fun i : Interval =>
      i.domain = .logarithmic ∧ ∃ g, i.value = .exact g ∧ P g) ?_ fun _ hi => hi
    refine hvalue.bind ?_
    rintro _ ⟨g, rfl, -, hg⟩
    exact ⟨rfl, g, rfl, hg⟩

/-- What has an inverse has a geometric inverse. -/
theorem exists_geometricInverse {r : Quantity} (hq : q.value = .exact m)
    (hdomain : q.domain ≠ .linear) (h : q.inverse s = .ok r) :
    ∃ g, m.geometricInverse s = .ok g := by
  suffices hvalue : ∃ w, q.value.geometricInverse s = .ok w by
    obtain ⟨w, hw⟩ := hvalue
    rw [hq] at hw
    obtain ⟨g, hg, -⟩ := map_eq_ok.mp hw
    exact ⟨g, hg⟩
  cases q with
  | interval i =>
    replace h : i.inverse s = .ok r := h
    rw [Interval.inverse_of_ne hdomain] at h
    obtain ⟨w, hw, -⟩ := bind_eq_ok.mp h
    exact ⟨w, hw⟩
  | val v =>
    obtain ⟨i, hi, -⟩ := map_eq_ok.mp h
    obtain ⟨w, hw, -⟩ := bind_eq_ok.mp hi
    exact ⟨w, hw⟩

/-- A quantity and its dual map to the pairing of their vectors, on either side. -/
theorem Dual.barring_dot (hs : s.Valid) {q r : Quantity} (h : q.Dual r) (hq : q.value = .exact m)
    (hr : r.value = .exact n) (hm : m.Directed) (hmf : m.Foldable) (hn : n.Directed)
    (hnf : n.Foldable) (hes : m.Unfolds es) (hfs : n.Unfolds fs) :
    Barring False (·.CountsSteps (pairing es fs)) (q.dot s r) ∧
      Barring False (·.CountsSteps (pairing es fs)) (r.dot s q) := by
  cases q <;> cases r
  · exact h.elim
  · have hdot := Interval.barring_dotVal hs hq hr hm hmf hn hnf hes hfs
    exact ⟨hdot, hdot⟩
  · have hdot := Interval.barring_dotVal hs hr hq hn hnf hm hmf hfs hes
    rw [pairing_comm] at hdot
    exact ⟨hdot, hdot⟩
  · exact h.elim

/-- Inversion is a duality: the inverse of a logarithmic interval is a val that is measured against
the interval, and the inverse of a val is a logarithmic interval. Each maps to a single step with
what it is the inverse of, and inverting twice gives the value back. It all fails by overflow
alone, for a value whose residual can be folded; another value has no inverse. -/
theorem inverse_duality (hs : s.Valid) (hq : q.value = .exact m) (hdomain : q.domain ≠ .linear)
    (hm : m.Directed) :
    (m.Foldable → Barring False (fun r => q.Dual r ∧
      Barring False (·.CountsSteps 1) (q.dot s r) ∧ Barring False (·.CountsSteps 1) (r.dot s q) ∧
      Barring False (fun p => r.Dual p ∧ p.value.strictEquals s q.value = .ok true) (r.inverse s))
      (q.inverse s)) ∧
    (¬ m.Foldable → ∀ r, q.inverse s ≠ .ok r) := by
  refine ⟨fun hf => ?_, fun hnf r hr => ?_⟩
  · have hinverse : Barring False (fun g => g.time = 0 ∧ ∃ es, m.Unfolds es ∧
        pairing es es ≠ 0 ∧ IsVector s g (dual es)) (m.geometricInverse s) :=
      (hm.barring_geometricInverse hf).mono fun g ⟨es, hes, h0, hg⟩ => ⟨hg.time, es, hes, h0, hg⟩
    refine (barring_inverse hq hdomain hm.scalar hinverse).mono ?_
    rintro r ⟨hdual, g, hr, es, hes, h0, hg⟩
    have h0' := pairing_dual_ne_zero h0
    have hdots := hdual.barring_dot hs hq hr hm hf (hg.directed h0') (.inl hg.residual) hes
      hg.unfolds
    rw [pairing_dual h0] at hdots
    refine ⟨hdual, hdots.1, hdots.2, ?_⟩
    -- the dual of the dual vector is the vector
    have hback : Barring False (fun p => p.time = 0 ∧ IsVector s p es) (g.geometricInverse s) :=
      (hg.barring_geometricInverse h0').mono fun p hp => by
        rw [dual_dual h0] at hp
        exact ⟨hp.time, hp⟩
    refine (barring_inverse hr hdual.domain_ne hg.time hback).mono ?_
    rintro p ⟨hdual', w, hw, hes'⟩
    refine ⟨hdual', ?_⟩
    rw [hw, hq]
    exact hes.strictEquals hm.scalar hm.uncorrected hes'
  · obtain ⟨g, hg⟩ := exists_geometricInverse hq hdomain hr
    obtain ⟨magnitude, hdot, -⟩ := bind_eq_ok.mp hg
    obtain ⟨n, hn, -⟩ := bind_eq_ok.mp hdot
    exact hnf (foldable_of_folded hn)

/-- A residual whose only prime has an exponent already is not folded. -/
theorem inverse_of_unfactored :
    let m : Monzo := { exps := [0], residual := 2 }
    m.Directed ∧ Quantity.inverse {} (.interval { value := .exact m, domain := .logarithmic }) =
      .error .residualDot := by
  intro m
  have hm : m.Directed := directed_of_prime (p := 2) (by decide +kernel) rfl rfl
    Double.zero_beq_zero ⟨{}, by decide +kernel⟩
  have hdot : m.dot {} m = .error .residualDot := by decide +kernel
  have hinverse : m.geometricInverse {} = .error .residualDot := by
    rw [geometricInverse, hdot]
    rfl
  refine ⟨hm, ?_⟩
  have hi := Interval.inverse_of_ne (s := {}) (i := { value := .exact m, domain := .logarithmic })
    (by decide)
  refine hi.trans ?_
  rw [Value.geometricInverse, hinverse]
  rfl

/-- A fifth over a single prime, and a map with a prime in its residual. -/
theorem inverse_duality_fifth :
    let m : Monzo := { exps := [-1], residual := 3 }
    let n : Monzo := { exps := [12, 19], residual := 5 }
    ∀ q : Quantity, q = .interval { value := .exact m, domain := .logarithmic } ∨
        q = .val { value := .exact n, equave := .exact { exps := [1] } } →
      ∃ r p, q.inverse {} = .ok r ∧ q.Dual r ∧ r.inverse {} = .ok p ∧ r.Dual p ∧
        p.value.strictEquals {} q.value = .ok true := by
  intro m n q hq
  have hm : m.Directed ∧ m.Foldable := by
    have hthree : 3 ∈ Prime.table := by decide +kernel
    exact ⟨directed_of_prime hthree rfl rfl Double.zero_beq_zero ⟨{}, by decide +kernel⟩,
      foldable_of_prime hthree rfl (by decide +kernel)⟩
  have hn : n.Directed ∧ n.Foldable := by
    have hfive : 5 ∈ Prime.table := by decide +kernel
    exact ⟨directed_of_prime hfive rfl rfl Double.zero_beq_zero ⟨{}, by decide +kernel⟩,
      foldable_of_prime hfive rfl (by decide +kernel)⟩
  have hreturns : ∀ q : Quantity, q = .interval { value := .exact m, domain := .logarithmic } ∨
        q = .val { value := .exact n, equave := .exact { exps := [1] } } →
      (q.inverse {} >>= fun r => r.inverse {}).isOk := by
    rintro q (rfl | rfl) <;> decide +kernel
  obtain ⟨p, hp⟩ := exists_of_isOk (hreturns q hq)
  obtain ⟨r, hr, hp⟩ := bind_eq_ok.mp hp
  have hduality : Barring False (fun r => q.Dual r ∧ Barring False (·.CountsSteps 1) (q.dot {} r) ∧
      Barring False (·.CountsSteps 1) (r.dot {} q) ∧
      Barring False (fun p => r.Dual p ∧ p.value.strictEquals {} q.value = .ok true)
        (r.inverse {})) (q.inverse {}) := by
    rcases hq with rfl | rfl
    · exact (inverse_duality Settings.valid_default rfl (by decide) hm.1).1 hm.2
    · exact (inverse_duality Settings.valid_default rfl (by decide) hn.1).1 hn.2
  rw [hr] at hduality
  obtain ⟨hdual, -, -, hback⟩ := hduality
  rw [hp] at hback
  exact ⟨r, p, hr, hdual, hp, hback⟩

end Quantity

end Intonation
