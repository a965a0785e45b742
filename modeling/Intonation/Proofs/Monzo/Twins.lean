import Intonation.Proofs.Monzo.Canonical
import Intonation.Proofs.Outcome
import Intonation.Proofs.Ratio.Power
import Intonation.Value.Measure

/-!
# Values of one ratio

Two canonical values of one ratio need not be the same: a computed zero keeps exponents, and a
zero correction keeps a sign. No operation tells such twins apart. Where the result is real it is
the same double, and where it is exact the results are twins again.

## Main definitions

* `Monzo.Twins`, `Value.Twins`: canonical scalars of one ratio, or one real value

## Main statements

* `Twins.toApprox_eq`, `Twins.totalCents`: sizes of twins
* `Twins.mul`, `Twins.div`, `Twins.add`, `Twins.sub`: arithmetic of twins
-/

namespace Intonation
open Double

namespace Monzo

/-- Canonical scalars of one ratio. -/
structure Twins (s : Settings) (a b : Monzo) : Prop where
  left : Canonical s a
  right : Canonical s b
  ratio_eq : a.ratio = b.ratio
  left_time : a.time = 0
  right_time : b.time = 0

namespace Twins

variable {s : Settings} {a a' b b' : Monzo}

theorem refl (h : Canonical s a) (ht : a.time = 0) : Twins s a a := ⟨h, h, rfl, ht, ht⟩

theorem components_eq (h : Twins s a b) (h0 : a.residual ≠ 0) :
    a.exps = b.exps ∧ a.residual = b.residual :=
  h.left.components_eq h.right h.ratio_eq (mt h.left.ratio_eq_zero_iff.mp h0)

theorem residual_eq (h : Twins s a b) : a.residual = b.residual := by
  by_cases h0 : a.residual = 0
  · rw [h0, h.right.ratio_eq_zero_iff.mp (h.ratio_eq ▸ h.left.ratio_eq_zero_iff.mpr h0)]
  · exact (h.components_eq h0).2

theorem cents (h : Twins s a b) : Alike a.cents b.cents :=
  .of_beq_zero h.left.uncorrected h.right.uncorrected

/-! ## Sizes -/

theorem addSizes_alike (primes : List (Nat × Float)) (es : List ℚ) {x y : Float}
    (h : Alike x y) : Alike (addSizes primes es x) (addSizes primes es y) := by
  induction primes generalizing es x y with
  | nil => cases es <;> exact h
  | cons pm primes ih =>
    cases es with
    | nil => exact h
    | cons e es =>
      rw [addSizes, addSizes]
      split
      · exact ih es h
      · exact ih es (h.add_right _)

theorem totalCents (h : Twins s a b) : Alike a.totalCents b.totalCents := by
  unfold Monzo.totalCents
  by_cases h0 : a.residual = 0
  · rw [if_pos h0, if_pos (h.residual_eq ▸ h0)]
  · rw [← (h.components_eq h0).1, ← h.residual_eq, if_neg h0, if_neg h0]
    have hsum := addSizes_alike Prime.measures a.exps h.cents
    simp only
    split
    · exact hsum
    · exact hsum.add_right _

theorem valueOf_eq (h : Twins s a b) : a.valueOf = b.valueOf := by
  unfold Monzo.valueOf
  rw [if_pos h.left.isFractional, if_pos h.right.isFractional, ← h.ratio_eq, ← h.residual_eq]
  have hcents : centsToValue a.totalCents = centsToValue b.totalCents := by
    unfold centsToValue
    rcases h.totalCents with heq | ⟨ha, hb⟩
    · rw [heq]
    · rw [if_pos ha, if_pos hb]
  simp only [hcents]

theorem toApprox_eq (h : Twins s a b) : a.toApprox = b.toApprox := by
  rw [toApprox, toApprox, h.valueOf_eq, h.left_time, h.right_time]

/-! ## Arithmetic -/

theorem abs (h : Twins s a b) : Both (Twins s) (a.abs s) (b.abs s) := by
  intro m hm n hn
  obtain ⟨hcm, hrm, htm⟩ := h.left.abs hm
  obtain ⟨hcn, hrn, htn⟩ := h.right.abs hn
  exact ⟨hcm, hcn, by rw [hrm, hrn, h.ratio_eq], htm.trans h.left_time, htn.trans h.right_time⟩

theorem ofRatio (s : Settings) (q : ℚ) : Both (Twins s) (Monzo.ofRatio s q) (Monzo.ofRatio s q) := by
  refine .diag fun m hm => ?_
  obtain ⟨hc, -, ht⟩ := canonical_ofRatio hm
  exact refl hc ht

theorem mul (h : Twins s a a') (h' : Twins s b b') :
    Both (Twins s) (a.mul s b) (a'.mul s b') := by
  intro m hm n hn
  obtain ⟨hcm, hrm, htm⟩ := h.left.mul h'.left hm
  obtain ⟨hcn, hrn, htn⟩ := h.right.mul h'.right hn
  refine ⟨hcm, hcn, by rw [hrm, hrn, h.ratio_eq, h'.ratio_eq], ?_, ?_⟩
  · rw [htm, h.left_time, h'.left_time, add_zero]
  · rw [htn, h.right_time, h'.right_time, add_zero]

theorem divNonzero (h : Twins s a a') (h' : Twins s b b') :
    Both (Twins s) (a.divNonzero s b) (a'.divNonzero s b') := by
  intro m hm n hn
  obtain ⟨hcm, hrm, htm⟩ := h.left.divNonzero h'.left hm
  obtain ⟨hcn, hrn, htn⟩ := h.right.divNonzero h'.right hn
  refine ⟨hcm, hcn, by rw [hrm, hrn, h.ratio_eq, h'.ratio_eq], ?_, ?_⟩
  · rw [htm, h.left_time, h'.left_time, sub_zero]
  · rw [htn, h.right_time, h'.right_time, sub_zero]

end Twins

end Monzo

/-- Canonical scalars of one ratio, or one real value. -/
inductive Value.Twins (s : Settings) : Value → Value → Prop
  | exact {a b : Monzo} (h : a.Twins s b) : Twins s (.exact a) (.exact b)
  | real (x : Approx) : Twins s (.real x) (.real x)

namespace Value.Twins

variable {s : Settings} {v v' w w' : Value}

theorem map_exact {x y : Except Fault Monzo} (h : Both (Monzo.Twins s) x y) :
    Both (Twins s) (x.map .exact) (y.map .exact) := h.map fun _ _ => .exact

theorem map_real {x y : Except Fault Approx} (h : x = y) :
    Both (Twins s) (x.map .real) (y.map .real) := by
  subst h
  exact (Both.diag fun _ _ => rfl).map fun _ _ heq => heq ▸ .real _

theorem ok_real {x y : Approx} (h : x = y) :
    Both (ε := Fault) (Twins s) (.ok (.real x)) (.ok (.real y)) := .ok (h ▸ .real x)

/-- An operation that respects twins in its exact form respects them altogether. -/
theorem lift {onExact : Monzo → Monzo → Except Fault Value}
    {onReal : Approx → Approx → Except Fault Approx}
    (hop : ∀ {a a' b b' : Monzo}, a.Twins s a' → b.Twins s b' →
      Both (Twins s) (onExact a b) (onExact a' b'))
    (hv : Twins s v v') (hw : Twins s w w') :
    Both (Twins s) (Value.lift onExact onReal v w) (Value.lift onExact onReal v' w') := by
  cases hv with
  | exact ha =>
    cases hw with
    | exact hb => exact hop ha hb
    | real y =>
      refine map_real ?_
      show onReal (Monzo.toApprox _) y = onReal (Monzo.toApprox _) y
      rw [ha.toApprox_eq]
  | real x =>
    cases hw with
    | exact hb =>
      refine map_real ?_
      show onReal x (Monzo.toApprox _) = onReal x (Monzo.toApprox _)
      rw [hb.toApprox_eq]
    | real y => exact map_real rfl

end Value.Twins

namespace Monzo

variable {s : Settings} {a a' b b' : Monzo}

namespace Twins

theorem inverse (h : Twins s a b) : Both (Value.Twins s) (a.inverse s) (b.inverse s) := by
  refine .ite (by rw [h.residual_eq]) (fun _ => ?_) (fun _ => Value.Twins.map_exact ?_)
  · exact Value.Twins.ok_real (by rw [h.left_time, h.right_time])
  · intro m hm n hn
    obtain ⟨hcm, hrm, htm⟩ := h.left.reciprocal hm
    obtain ⟨hcn, hrn, htn⟩ := h.right.reciprocal hn
    refine ⟨hcm, hcn, by rw [hrm, hrn, h.ratio_eq], ?_, ?_⟩
    · rw [htm, h.left_time, neg_zero]
    · rw [htn, h.right_time, neg_zero]

theorem div (h : Twins s a a') (h' : Twins s b b') :
    Both (Value.Twins s) (a.div s b) (a'.div s b') := by
  refine .ite (by rw [h'.residual_eq]) (fun _ => Value.Twins.ok_real ?_)
    (fun _ => Value.Twins.map_exact (h.divNonzero h'))
  rw [h.toApprox_eq, h'.toApprox_eq]

/-- The value of a ratio over the primes of two canonical values. -/
theorem ratioResult_eq (ha : Canonical s a) (hb : Canonical s b) (q : ℚ) :
    ratioResult s a b q = (Monzo.ofRatio s q).map fun m => .exact { m with time := a.time } := by
  unfold ratioResult
  rw [ha.components_length, hb.components_length, max_self]
  cases h : Monzo.ofRatioOver s s.numberOfComponents q with
  | error e =>
    rw [Monzo.ofRatio, h]
    rfl
  | ok m =>
    rw [Monzo.ofRatio, h]
    rfl

theorem ratioResult (h : Twins s a a') (h' : Twins s b b') {p q : ℚ} (hpq : p = q) :
    Both (Value.Twins s) (Monzo.ratioResult s a b p) (Monzo.ratioResult s a' b' q) := by
  subst hpq
  rw [ratioResult_eq h.left h'.left, ratioResult_eq h.right h'.right, h.left_time, h.right_time]
  refine (ofRatio s p).map fun m n hmn => .exact ?_
  obtain ⟨⟨hm1, hm2, hm3, hm4, hm5⟩, ⟨hn1, hn2, hn3, hn4, hn5⟩, hr, -, -⟩ := hmn
  exact ⟨⟨hm1, hm2, hm3, hm4, hm5⟩, ⟨hn1, hn2, hn3, hn4, hn5⟩, hr, rfl, rfl⟩

theorem requireUnits_eq (operation : String) (h : Twins s a a') (h' : Twins s b b') :
    requireUnits operation a b = .ok () ∧ requireUnits operation a' b' = .ok () := by
  unfold requireUnits
  rw [h.left_time, h'.left_time, h.right_time, h'.right_time]
  exact ⟨rfl, rfl⟩

theorem add (h : Twins s a a') (h' : Twins s b b') :
    Both (Value.Twins s) (a.add s b) (a'.add s b') := by
  obtain ⟨hu, hu'⟩ := requireUnits_eq "add" h h'
  unfold Monzo.add
  rw [hu, hu', h.left.isFractional, h'.left.isFractional, h.right.isFractional,
    h'.right.isFractional]
  exact h.ratioResult h' (by rw [h.ratio_eq, h'.ratio_eq])

theorem sub (h : Twins s a a') (h' : Twins s b b') :
    Both (Value.Twins s) (a.sub s b) (a'.sub s b') := by
  obtain ⟨hu, hu'⟩ := requireUnits_eq "subtract" h h'
  unfold Monzo.sub
  rw [hu, hu', h.left.isFractional, h'.left.isFractional, h.right.isFractional,
    h'.right.isFractional]
  exact h.ratioResult h' (by rw [h.ratio_eq, h'.ratio_eq])

end Twins

end Monzo

end Intonation
