import Intonation.Interval.Arithmetic
import Intonation.Proofs.Literal.Lowering
import Intonation.Proofs.Monzo.Measuring
import Intonation.Proofs.Monzo.Temperament
import Intonation.Proofs.Ratio.Decimal

/-!
# Literals of ratios

Integers, fractions and exact decimals denote ratios, and radicals denote powers of ratios. A
literal spells a value when lowering it gives that value again. Every operator on literals of
ratios spells the value that the operator on values gives.

## Main definitions

* `Literal.Denotes`: the ratio and the time units of a literal
* `Literal.Spells`: a literal of a ratio or of a radical and a value that it spells
* `Value.Matches`: the same time units and ratio, or strictly equal values

## Main statements

* `Spells.lowers`: a literal lowers to the value that it spells
* `Spells.neg`, `Spells.invert`, `Spells.abs`: unary operators
-/

namespace Intonation

/-- The same time units and ratio for a ratio, and strictly equal components otherwise. -/
def Value.Matches (s : Settings) (v w : Value) : Prop :=
  if v.isFractional then v.time = w.time ∧ ∃ q, v.toRatio = .ok q ∧ w.toRatio = .ok q
  else v.strictEquals s w = .ok true

namespace Monzo
open Double

variable {s : Settings} {m n w : Monzo}

theorem Coincide.strictEquals (h : Coincide m n) (hm : boundsFault? s m = none) :
    m.strictEquals s n = .ok true := by
  have hcents : (m.cents == n.cents) = true :=
    h.cents.beq (boundsFault?_eq_none_iff.mp hm).2.not_nan
  unfold Monzo.strictEquals
  rw [align_of_components_eq (by rw [components, components, h.exps])]
  show Except.ok _ = _
  rw [h.time, h.exps, h.residual, hcents]
  simp

theorem Coincide.matches (h : Coincide m n) (hm : boundsFault? s m = none) :
    Value.Matches s (.exact m) (.exact n) := by
  unfold Value.Matches
  split
  · next hfrac =>
    refine ⟨h.time, m.ratio, if_pos hfrac, ?_⟩
    have hfrac' : n.isFractional = true := h.isFractional_eq ▸ hfrac
    exact (if_pos hfrac').trans (by rw [h.ratio_eq])
  · exact h.strictEquals hm

/-- The value of a ratio has no time units. -/
theorem ofRatio_map_exact {q : ℚ} : (ofRatio s q).map Value.exact =
    (ofRatio s q).map fun m => .exact { m with time := 0 } := by
  cases hm : ofRatio s q with
  | error fault => rfl
  | ok m =>
    obtain ⟨-, -, htime⟩ := canonical_ofRatio hm
    show Except.ok (Value.exact m) = .ok (.exact { m with time := 0 })
    rw [← htime]

/-- A frequency is the value of its ratio with the time unit below. -/
theorem ofFrequency_eq {q : ℚ} :
    ofFrequency s q = (ofRatio s q).map fun m => { m with time := -1 } := by
  show ofRatio s q >>= _ = _
  cases hm : ofRatio s q with
  | error fault => rfl
  | ok m =>
    obtain ⟨hb, rfl⟩ := checked_eq_ok_iff.mp (ofRatioOver_eq_ok_iff.mp hm).2
    exact checked_eq_ok_iff.mpr ⟨hb, rfl⟩

end Monzo

namespace Literal
open Double

/-- Integers, fractions and decimals other than real ones. -/
def isRatio : Literal → Bool
  | integer _ | fraction .. => true
  | decimal _ flavor => flavor ≠ .real
  | _ => false

/-- The ratio and the power of the time unit that a literal denotes. -/
inductive Denotes : Literal → ℚ → ℚ → Prop
  | integer (n : Int) : Denotes (integer n) n 0
  | fraction {n d : Int} (h : d ≠ 0) : Denotes (fraction n d) ((n : ℚ) / d) 0
  | decimal {d : Digits} {f : DecimalFlavor} {q t : ℚ} (hf : f ≠ .real) (h : d.toRatio = .ok q)
    (ht : t = flavorTime f) : Denotes (decimal d f) q t

/-- A literal of a ratio or of a radical spells a value. -/
inductive Spells (s : Settings) : Literal → Value → Prop
  | ratio {l : Literal} {q t : ℚ} {m : Monzo} (h : Denotes l q t) (hm : m.Canonical s)
    (hq : m.ratio = q) (ht : m.time = t) : Spells s l (.exact m)
  | radical {q e : ℚ} {m w : Monzo} (hq : 0 < q)
    (hw : Monzo.ofTemperament s s.numberOfComponents e q = .ok w) (hm : m.Coincide w) :
    Spells s (radical q e) (.exact m)

variable {s : Settings} {l l' a b : Literal} {v v' w : Value} {q t : ℚ}

/-! ## Lowering -/

theorem Denotes.isVal (h : Denotes l q t) : l.isVal = false := by cases h <;> rfl

theorem Denotes.domain (h : Denotes l q t) : l.domain = .linear := by cases h <;> rfl

theorem Spells.isVal (h : Spells s l v) : l.isVal = false := by
  cases h with
  | ratio h => exact h.isVal
  | radical => rfl

/-- The value that a literal of a ratio lowers to is that of the ratio, with its time units. -/
theorem Denotes.lowerValue_eq (h : Denotes l q t) (c : Context) : lowerValue s c l =
    Memoized.ofExcept ((Monzo.ofRatio s q).map fun m => .exact { m with time := t }) := by
  cases h with
  | integer n => exact congrArg Memoized.ofExcept Monzo.ofRatio_map_exact
  | @fraction n d hd =>
    show Memoized.ofExcept ((lowerFraction s _ n d).map Value.exact) = _
    rw [lowerFraction, if_neg hd, Monzo.ofRatio_map_exact]
  | @decimal d f q t hf hd ht =>
    subst ht
    show Memoized.ofExcept (lowerDecimal s d f) = _
    unfold lowerDecimal
    rw [hd]
    cases f with
    | real => exact absurd rfl hf
    | plain => exact congrArg Memoized.ofExcept Monzo.ofRatio_map_exact
    | exact => exact congrArg Memoized.ofExcept Monzo.ofRatio_map_exact
    | frequency =>
      show Memoized.ofExcept ((Monzo.ofFrequency s q).map Value.exact) = _
      rw [Monzo.ofFrequency_eq]
      cases Monzo.ofRatio s q <;> rfl

/-- A literal of a ratio lowers to a canonical value of the ratio. -/
theorem Denotes.lowers {m : Monzo} (h : Denotes l q t) (hm : Monzo.ofRatio s q = .ok m)
    (c : Context) (memo : CommaMemo) :
    (lowerValue s c l).Returns memo (.exact { m with time := t }) memo := by
  rw [h.lowerValue_eq, hm]
  exact Memoized.returns_ofExcept.mpr ⟨rfl, rfl⟩

/-- A literal lowers to the value that it spells, in any context. -/
theorem Spells.lowers (h : Spells s l v) (context : Option Context) (memo : CommaMemo) :
    ∃ i : Interval, (lower s context l).Returns memo (.interval i) memo ∧ i.literal = some l ∧
      v.Matches s i.value := by
  have habsurd : 1 ≤ s.absurdExponent := by
    cases h with
    | ratio h hm => exact Monzo.one_le_absurdExponent hm.bounded
    | radical hq hw => exact Monzo.one_le_absurdExponent (Monzo.ofTemperament_ok hw).1
  obtain ⟨c, hc⟩ := Context.exists_given habsurd context
  have key : ∃ w, (lowerValue s c l).Returns memo w memo ∧ v.Matches s w := by
    cases h with
    | @ratio l q t m h hm hq ht =>
      obtain ⟨w, hw⟩ := hm.exists_ofRatio
      rw [hq] at hw
      obtain ⟨hcw, hrw, -⟩ := Monzo.canonical_ofRatio hw
      refine ⟨_, h.lowers hw c memo, ?_⟩
      unfold Value.Matches
      rw [if_pos (show (Value.exact m).isFractional = true from hm.isFractional)]
      refine ⟨ht, q, hm.toRatio.trans (by rw [hq]), ?_⟩
      exact hcw.toRatio.trans (by rw [hrw])
    | @radical q e m w hq hw hm =>
      refine ⟨.exact w, Memoized.returns_ofExcept.mpr ⟨map_eq_ok.mpr ⟨w, ?_, rfl⟩, rfl⟩, ?_⟩
      · show lowerRadical s _ q e = _
        rw [lowerRadical, if_neg (not_le.mpr hq), hw]
      · refine hm.matches ?_
        exact Monzo.bounded_congr hm.exps.symm hm.residual.symm hm.cents.symm
          (Monzo.ofTemperament_ok hw).1
  obtain ⟨w, hw, hmatch⟩ := key
  exact ⟨_, (lower_returns_iff h.isVal).mpr ⟨c, w, hc, hw, rfl⟩, rfl, hmatch⟩

/-- Lowering a literal of a ratio gives a value that it spells. -/
theorem spells_of_lowerValue {c : Context} {memo memo' : CommaMemo} (hl : l.isRatio)
    (h : (lowerValue s c l).Returns memo v memo') : Spells s l v := by
  have hspells : ∀ {l q m}, Denotes l q 0 → Monzo.ofRatio s q = .ok m →
      Spells s l (.exact m) := by
    intro l q m hd hm
    obtain ⟨hc, hq, ht⟩ := Monzo.canonical_ofRatio hm
    exact .ratio hd hc hq ht
  cases l <;> try cases hl
  case integer n =>
    obtain ⟨m, hm, rfl⟩ := map_eq_ok.mp (Memoized.returns_ofExcept.mp h).1
    exact hspells (.integer n) hm
  case fraction n d =>
    obtain ⟨m, hm, rfl⟩ := map_eq_ok.mp (Memoized.returns_ofExcept.mp h).1
    replace hm : lowerFraction s _ n d = .ok m := hm
    unfold lowerFraction at hm
    split at hm
    · cases hm
    · next hd => exact hspells (.fraction hd) hm
  case decimal d f =>
    obtain ⟨q, hq, hv⟩ := bind_eq_ok.mp (Memoized.returns_ofExcept.mp h).1
    cases f with
    | real => cases hl
    | frequency =>
      obtain ⟨w, hw, rfl⟩ := map_eq_ok.mp hv
      obtain ⟨m, hm, hchecked⟩ := bind_eq_ok.mp hw
      obtain ⟨hc, hmq, -⟩ := Monzo.canonical_ofRatio hm
      obtain ⟨hb, rfl⟩ := Monzo.checked_eq_ok_iff.mp hchecked
      exact .ratio (.decimal nofun hq rfl)
        ⟨hc.tracked, zero_beq_zero, hb, hc.free, hc.whole⟩ hmq rfl
    | plain =>
      obtain ⟨m, hm, rfl⟩ := map_eq_ok.mp hv
      exact hspells (.decimal nofun hq rfl) hm
    | exact =>
      obtain ⟨m, hm, rfl⟩ := map_eq_ok.mp hv
      exact hspells (.decimal nofun hq rfl) hm

/-! ## Unary operators -/

theorem Spells.neg (h : Spells s l v) (hv : v.neg s = .ok v') (hl : l.neg = some l') :
    Spells s l' v' := by
  cases h with
  | radical => cases hl
  | ratio h hm hq ht =>
    obtain ⟨n, hn, rfl⟩ := map_eq_ok.mp hv
    obtain ⟨hcn, hrn, htn⟩ := hm.neg hn
    rw [← htn] at ht
    cases h with
    | integer k =>
      cases hl
      exact .ratio (.integer (-k)) hcn (by rw [hrn, hq]; push_cast; rfl) ht
    | fraction hd =>
      cases hl
      exact .ratio (.fraction hd) hcn (by rw [hrn, hq]; push_cast; ring) ht
    | decimal hf hd htf =>
      cases hl
      exact .ratio (.decimal hf (Digits.toRatio_flip hd) htf) hcn (by rw [hrn, hq]) ht

theorem Spells.abs (h : Spells s l v) (hv : v.abs s = .ok v') (hl : l.abs = some l') :
    Spells s l' v' := by
  cases h with
  | radical => cases hl
  | ratio h hm hq ht =>
    obtain ⟨n, hn, rfl⟩ := map_eq_ok.mp hv
    obtain ⟨hcn, hrn, htn⟩ := hm.abs hn
    rw [← htn] at ht
    cases h with
    | integer k =>
      cases hl
      exact .ratio (.integer _) hcn (by rw [hrn, hq]; simp) ht
    | fraction hd =>
      cases hl
      refine .ratio (.fraction (by simpa using hd)) hcn ?_ ht
      rw [hrn, hq, abs_div]
      simp
    | decimal hf hd htf =>
      cases hl
      exact .ratio (.decimal hf (Digits.toRatio_abs hd) htf) hcn (by rw [hrn, hq]) ht

/-- Only the literals of ratios that are not zero have a reciprocal. -/
theorem Denotes.invert (h : Denotes l q t) (hl : l.invert = some l') :
    q ≠ 0 ∧ t = 0 ∧ Denotes l' q⁻¹ 0 := by
  cases h with
  | decimal => cases hl
  | integer n =>
    rw [Literal.invert] at hl
    split at hl
    · cases hl
    · next hn =>
      have hn' : (n : ℚ) ≠ 0 := by exact_mod_cast hn
      refine ⟨hn', rfl, ?_⟩
      split at hl
      · cases hl
        have h := Denotes.fraction (n := -1) (neg_ne_zero.mpr hn)
        rwa [show (((-1 : Int) : ℚ) / ((-n : Int) : ℚ)) = (n : ℚ)⁻¹ by push_cast; field_simp] at h
      · cases hl
        have h := Denotes.fraction (n := 1) hn
        rwa [show (((1 : Int) : ℚ) / (n : ℚ)) = (n : ℚ)⁻¹ by push_cast; field_simp] at h
  | @fraction n d hd =>
    rw [Literal.invert] at hl
    split at hl
    · cases hl
    · next hn =>
      have hn' : (n : ℚ) ≠ 0 := by exact_mod_cast hn
      have hd' : (d : ℚ) ≠ 0 := by exact_mod_cast hd
      refine ⟨div_ne_zero hn' hd', rfl, ?_⟩
      rw [inv_div]
      split at hl
      · cases hl
        have h := Denotes.fraction (n := -d) (neg_ne_zero.mpr hn)
        rwa [show (((-d : Int) : ℚ) / ((-n : Int) : ℚ)) = (d : ℚ) / n by
          push_cast; field_simp] at h
      · cases hl
        exact .fraction hn

theorem Spells.invert (h : Spells s l v) (hv : v.inverse s = .ok v') (hl : l.invert = some l') :
    Spells s l' v' := by
  cases h with
  | radical => cases hl
  | ratio h hm hq ht =>
    obtain ⟨hq0, rfl, h'⟩ := h.invert hl
    replace hv : (if _ then _ else _) = Except.ok v' := hv
    rw [if_neg (mt hm.ratio_eq_zero_iff.mpr (hq ▸ hq0))] at hv
    obtain ⟨n, hn, rfl⟩ := map_eq_ok.mp hv
    obtain ⟨hcn, hrn, htn⟩ := hm.reciprocal hn
    exact .ratio h' hcn (by rw [hrn, hq]) (by rw [htn, ht, neg_zero])

end Literal

end Intonation
