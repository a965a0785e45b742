import Intonation.Proofs.Double.Opposite
import Intonation.Proofs.Monzo.Group
import Intonation.Proofs.Monzo.Periods

/-!
# Distance to unison

The distance of a positive value to unison is the value or its reciprocal, whichever is at least
one. Which one it is, is decided by the sign of the size in doubles, so that the distance is right
exactly when the size has the sign of the logarithm. The reciprocal is also what the opposite
fraction of an equave gives, up to the sign of a zero correction.

## Main statements

* `reciprocal_parts_eq_iff`: only unity is its own reciprocal
* `pitchAbs_eq`: the value or its reciprocal
* `IsPositive.pitchAbs`: the distance of a ratio to unison
* `exists_ofTemperament_neg`: the opposite fraction of an equave
-/

namespace Intonation.Monzo
open Double Intonation.Prime

variable {s : Settings} {m n : Monzo} {a e : ℚ} {count : Nat}

/-! ## Reciprocals -/

/-- The reciprocal of a value without correction is within the bounds. -/
theorem bounded_reciprocal (h : boundsFault? s m = none) (hcents : m.cents == 0) :
    boundsFault? s m.reciprocal = none := by
  obtain ⟨hexps, hrest⟩ := boundsFault?_eq_none_iff.mp h
  refine bounded_of_uncorrected (exponentFault?_map_neg hexps) ?_ (neg_beq_zero hcents)
  exact (Ratio.bits_inv m.residual).trans_le hrest.bits_le

theorem self_eq_inv_iff (ha : 0 < a) : a = a⁻¹ ↔ a = 1 := by
  rw [← mul_eq_one_iff_eq_inv₀ ha.ne', mul_self_eq_one_iff]
  exact or_iff_left (by linarith)

/-- Only unity is its own reciprocal. -/
theorem reciprocal_parts_eq_iff (htime : m.time = 0) (hpos : 0 < m.residual)
    (hcents : m.cents == 0) : m.parts = m.reciprocal.parts ↔ m.isUnity := by
  have hscalar : m.isScalar = true := decide_eq_true htime
  have huncorrected : m.isUncorrected = true := hcents
  have hexps : m.exps = m.exps.map (fun e => -e) ↔ isFlat m.exps := by
    rw [isFlat, List.all_eq_true]
    constructor
    · intro h e he
      have hself : m.exps.map id = m.exps.map fun e => -e := by rwa [List.map_id]
      have := List.map_inj_left.mp hself e he
      exact decide_eq_true (self_eq_neg.mp this)
    · intro h
      conv_lhs => rw [← List.map_id m.exps]
      refine List.map_congr_left fun e he => ?_
      rw [of_decide_eq_true (h e he), id, neg_zero]
  rw [isUnity, isEqualTemperament, hscalar, huncorrected, Bool.true_and, Bool.true_and,
    Bool.and_eq_true, decide_eq_true_eq, ← self_eq_inv_iff hpos, ← hexps, and_comm]
  exact Prod.ext_iff

/-- Strict equality of values without correction over one basis. -/
theorem strictEquals_iff_parts (hlen : m.components = n.components) (hm : m.cents == 0)
    (hn : n.cents == 0) :
    m.strictEquals s n = .ok true ↔ m.time = n.time ∧ m.parts = n.parts := by
  have hcents : (m.cents == n.cents) = true := beq_of_beq_zero hm hn
  rw [Monzo.strictEquals, align_of_components_eq hlen]
  show Except.ok _ = _ ↔ _
  simp [hcents, parts, and_assoc]

/-- A value and its reciprocal are strictly equal to themselves, and unity is to both. -/
theorem strictEquals_reciprocal_iff {up down : Prop} [Decidable up] [Decidable down]
    (htime : m.time = 0) (hpos : 0 < m.residual) (hcents : m.cents == 0)
    (hn : Coincide (if down then m.reciprocal else m) n) :
    (if up then m.reciprocal else m).strictEquals s n = .ok true ↔ m.isUnity ∨ (up ↔ down) := by
  have hturned : ∀ (turned : Prop) [Decidable turned],
      (if turned then m.reciprocal else m).time = 0 ∧
        (if turned then m.reciprocal else m).components = m.components ∧
        (if turned then m.reciprocal else m).cents == 0 := by
    intro turned _
    split
    · exact ⟨neg_eq_zero.mpr htime, List.length_map _, neg_beq_zero hcents⟩
    · exact ⟨htime, rfl, hcents⟩
  obtain ⟨htimeup, hlenup, hcentsup⟩ := hturned up
  obtain ⟨htimedown, hlendown, hcentsdown⟩ := hturned down
  have hlen : n.components = (if down then m.reciprocal else m).components :=
    congrArg List.length hn.exps.symm
  have hparts : n.parts = (if down then m.reciprocal else m).parts :=
    Prod.ext hn.exps.symm hn.residual.symm
  rw [strictEquals_iff_parts (hlenup.trans (hlen.trans hlendown).symm) hcentsup
    (hn.cents.beq_zero hcentsdown), htimeup, ← hn.time, htimedown, hparts,
    ← reciprocal_parts_eq_iff htime hpos hcents]
  by_cases hup : up <;> by_cases hdown : down <;> simp [hup, hdown, eq_comm]

/-! ## The distance of a value -/

/-- The distance to unison is the value or its reciprocal, by the sign of the size. -/
theorem pitchAbs_eq (h : boundsFault? s m = none) (hpos : 0 < m.residual) (hcents : m.cents == 0) :
    m.pitchAbs s = .ok (.exact (if m.totalCents < 0 then m.reciprocal else m)) := by
  have hinverse : m.inverse s = .ok (.exact m.reciprocal) := by
    rw [Monzo.inverse, if_neg hpos.ne', checked_eq_ok_iff.mpr ⟨bounded_reciprocal h hcents, rfl⟩]
    rfl
  rw [pitchAbs, abs_eq_self h hpos]
  show (if m.totalCents < 0 then m.inverse s else .ok (.exact m)) = _
  rw [hinverse]
  split_ifs <;> rfl

/-- The distance of a positive ratio to unison is the larger one of the ratio and its reciprocal
exactly when the size of any ratio but one has the sign of the logarithm. -/
theorem IsPositive.pitchAbs (h : m.IsPositive s a) : ∃ v, m.pitchAbs s = .ok (.exact v) ∧
    v.isFractional ∧ (v.toRatio = .ok (max a a⁻¹) ↔ a = 1 ∨ (m.totalCents < 0 ↔ a < 1)) := by
  have hratio : (if m.totalCents < 0 then m.reciprocal else m).IsRatio True 0
      (if m.totalCents < 0 then a⁻¹ else a) := by
    split
    · exact neg_zero (G := ℚ) ▸ h.isRatio.reciprocal
    · exact h.isRatio
  have hlarger : max a a⁻¹ = if a < 1 then a⁻¹ else a := by
    split
    · next hlt => exact max_eq_right (hlt.trans ((one_lt_inv₀ h.pos).mpr hlt)).le
    · next hge =>
      have hone : 1 ≤ a := not_lt.mp hge
      exact max_eq_left ((inv_le_one_of_one_le₀ hone).trans hone)
  refine ⟨_, pitchAbs_eq h.bounded h.residual_pos h.isRatio.uncorrected, hratio.isFractional, ?_⟩
  rw [hratio.toRatio, Except.ok.injEq, hlarger, ← self_eq_inv_iff h.pos]
  by_cases hsize : m.totalCents < 0 <;> by_cases hlt : a < 1 <;> simp [hsize, hlt, eq_comm]

/-! ## The opposite fraction -/

theorem residual_pos_of_ofTemperament (ha : 0 < a) (h : ofTemperament s count e a = .ok m) :
    0 < m.residual := by
  rcases (PowerOf.of_ofTemperament h).rest with ⟨hpow, -⟩ | ⟨-, hres, -⟩
  · exact ((Ratio.pow?_eq_some_iff (Monzo.residual_pos ha)).mp hpow).1
  · exact hres ▸ one_pos

/-- The opposite fraction of an equave has the reciprocal value, up to the sign of a zero
correction. -/
theorem exists_ofTemperament_neg (ha : 0 < a) (he : e ≠ 0)
    (h : ofTemperament s count e a = .ok m) (hcents : m.cents == 0) :
    ∃ n, ofTemperament s count (-e) a = .ok n ∧ Coincide m.reciprocal n := by
  obtain ⟨hbounded, htime, base, hbase, hexps⟩ := ofTemperament_ok h
  have hpos : 0 < base.residual := (IsPositive.of_ofRatioOver ha hbase).residual_pos
  have hneg : m.reciprocal.exps = base.exps.map (· * -e) := by
    rw [reciprocal, hexps, List.map_map]
    exact List.map_congr_left fun x _ => (mul_neg x e).symm
  have hrest := (PowerOf.of_ofTemperament h).rest
  rw [show (split (table.take count) a).2 = base.residual by rw [parts_of_ofRatioOver hbase]]
    at hrest
  have hbuild : ∀ {n : Monzo}, Coincide m.reciprocal n → checked s n = .ok n := fun hn =>
    checked_eq_ok_iff.mpr ⟨bounded_congr hn.exps hn.residual hn.cents
      (bounded_reciprocal hbounded hcents), rfl⟩
  have hzero : -m.time = 0 := by rw [htime, neg_zero]
  rcases hrest with ⟨hpow, -⟩ | ⟨hnone, hres, x, hx, halike⟩
  · have hpow' : Ratio.pow? base.residual (-e) = some m.residual⁻¹ := by
      rw [Ratio.pow?_neg hpos, hpow]
      rfl
    have hn : Coincide m.reciprocal
        { exps := base.exps.map (· * -e), residual := m.residual⁻¹ } :=
      ⟨hzero, hneg, rfl, .of_beq_zero (neg_beq_zero hcents) zero_beq_zero⟩
    exact ⟨_, (ofTemperament_of_pow hbase hpow').trans (hbuild hn), hn⟩
  · -- a correction that vanishes does so for the opposite fraction too
    obtain ⟨y, hy, hopposite⟩ := exists_ofRat?_neg he hx
    have hzero' : 1200 * log2Ratio base.residual * y == 0 :=
      (hopposite.mul _).beq_zero (halike.beq_zero hcents)
    have hpow' : Ratio.pow? base.residual (-e) = none := by
      rw [Ratio.pow?_neg hpos, hnone]
      rfl
    have hn : Coincide m.reciprocal
        { exps := base.exps.map (· * -e), cents := 1200 * log2Ratio base.residual * y } := by
      refine ⟨hzero, hneg, ?_, .of_beq_zero (neg_beq_zero hcents) hzero'⟩
      show m.residual⁻¹ = 1
      rw [hres, inv_one]
    exact ⟨_, (ofTemperament_of_not_pow hbase hpow' hpos.ne' hy).trans (hbuild hn), hn⟩

end Intonation.Monzo
