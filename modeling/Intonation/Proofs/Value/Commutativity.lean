import Intonation.Interval.Arithmetic
import Intonation.Proofs.Double.Zero
import Intonation.Proofs.Outcome

/-!
# Commutative operations

Sums and products do not depend on the order of their operands, real corrections and failures
included. Neither do harmonic sums, where one operand may hide that the other one has no geometric
inverse: a value that pairs to zero with itself absorbs whatever is added to it.

## Main statements

* `Approx.add_comm`, `Monzo.add_comm`, `Value.add_comm`: sums
* `Monzo.mul_comm`: products of exact values
* `Value.lensAdd_comm`, `Value.lens_comm`: harmonic sums
-/

namespace Intonation

variable {s : Settings} {u v w : Value}

protected theorem Approx.add_comm (a b : Approx) : a.add b = b.add a := by
  unfold Approx.add Approx.requireUnits
  by_cases htime : a.time = b.time
  · rw [if_pos htime, if_pos htime.symm, htime, Double.add_swap]
  · rw [if_neg htime, if_neg (Ne.symm htime)]
    rfl

namespace Monzo

protected theorem add_comm (s : Settings) (a b : Monzo) : a.add s b = b.add s a := by
  unfold Monzo.add requireUnits
  by_cases htime : a.time = b.time
  · rw [if_pos htime, if_pos htime.symm, Bool.and_comm, ratioResult, ratioResult, max_comm,
      add_comm a.ratio, htime, Approx.add_comm]
  · rw [if_neg htime, if_neg (Ne.symm htime)]
    rfl

/-- Two values have a common basis in either order. -/
theorem align_swap (s : Settings) (a b : Monzo) : align s b a = (align s a b).map Prod.swap := by
  unfold align
  rcases le_total a.components b.components with hle | hle
  · have hb : b.widen s a.components = .ok b := by rw [widen, if_neg hle.not_gt]
    rw [hb]
    cases a.widen s b.components <;> rfl
  · have ha : a.widen s b.components = .ok a := by rw [widen, if_neg hle.not_gt]
    rw [ha]
    cases b.widen s a.components <;> rfl

protected theorem mul_comm (s : Settings) (a b : Monzo) : a.mul s b = b.mul s a := by
  unfold mul
  rw [align_swap s a b]
  cases align s a b with
  | error f => rfl
  | ok c =>
    show checked s _ = checked s _
    rw [add_comm c.1.time, Double.add_swap c.1.cents, mul_comm c.1.residual,
      List.zipWith_comm_of_comm add_comm]

end Monzo

namespace Value

protected theorem add_comm (s : Settings) (v w : Value) : v.add s w = w.add s v := by
  have hreal : (v.toApprox.add w.toApprox).map real = (w.toApprox.add v.toApprox).map real := by
    rw [Approx.add_comm]
  cases v with
  | exact m =>
    cases w with
    | exact n => exact Monzo.add_comm s m n
    | real b => exact hreal
  | real a => cases w <;> exact hreal

/-- Reciprocals are added in either order. -/
theorem lensAdd_comm (h : v.lensAdd s w = .ok u) : w.lensAdd s v = .ok u := by
  have hreal : (w.toApprox.lensAdd v.toApprox).map real =
      (v.toApprox.lensAdd w.toApprox).map real := by
    rw [Approx.lensAdd, Approx.lensAdd, Approx.add_comm]
  cases v with
  | exact m =>
    cases w with
    | exact n =>
      obtain ⟨x, hx, h⟩ := bind_eq_ok.mp h
      obtain ⟨y, hy, h⟩ := bind_eq_ok.mp h
      rw [Value.add_comm] at h
      exact bind_eq_ok.mpr ⟨y, hy, bind_eq_ok.mpr ⟨x, hx, h⟩⟩
    | real b => exact hreal.trans h
  | real a => cases w <;> exact hreal.trans h

/-- Geometric inverses are multiplied in either order, unless the first value is absorbing. -/
theorem lens_comm (h0 : v.dot s v ≠ .ok 0) (h : Value.lens s (Value.mul s) v w = .ok u) :
    Value.lens s (Value.mul s) w v = .ok u := by
  obtain ⟨p, hp, h⟩ := bind_eq_ok.mp h
  have hp0 : p ≠ 0 := fun heq => h0 (heq ▸ hp)
  rw [if_neg hp0] at h
  obtain ⟨q, hq, h⟩ := bind_eq_ok.mp h
  refine bind_eq_ok.mpr ⟨q, hq, ?_⟩
  by_cases hq0 : q = 0
  · rw [if_pos hq0] at h ⊢
    exact h
  · rw [if_neg hq0] at h ⊢
    refine bind_eq_ok.mpr ⟨p, hp, ?_⟩
    rw [if_neg hp0]
    obtain ⟨x, hx, h⟩ := bind_eq_ok.mp h
    obtain ⟨y, hy, h⟩ := bind_eq_ok.mp h
    refine bind_eq_ok.mpr ⟨y, hy, bind_eq_ok.mpr ⟨x, hx, ?_⟩⟩
    cases v with
    | real a => cases hx
    | exact m =>
      cases w with
      | real b => cases hy
      | exact n =>
        obtain ⟨x, -, rfl⟩ := map_eq_ok.mp hx
        obtain ⟨y, -, rfl⟩ := map_eq_ok.mp hy
        change ((y.mul s x).map exact >>= _) = .ok u
        rw [Monzo.mul_comm]
        exact h

end Value

end Intonation
