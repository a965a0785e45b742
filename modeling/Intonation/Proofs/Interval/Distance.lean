import Intonation.Proofs.Interval.Measured
import Intonation.Proofs.Monzo.Distance

/-!
# Literals of distances to unison

The distance of lowered steps to unison has a literal of the same steps with positive terms, as
long as the equave exceeds one. The literal goes by the sign of the fraction, and the value by the
sign of its size in doubles. They agree exactly when the two signs do, or for unity. An equave so
close to one that doubles cannot tell the two apart has the size zero, and its steps downwards keep
a value below one.

## Main statements

* `Literal.Divides.abs`: the literal of a distance
* `Literal.Divides.lowersTo_iff`: what a fraction of an equave lowers to
* `distance_to_unison`: when distances of ratios and literals of distances are right
-/

namespace Intonation
open Double

namespace Literal

variable {s : Settings} {context : Option Context} {memo : CommaMemo} {l : Literal} {w : Steps}
  {f e : ℚ} {k : Interval} {m v : Monzo}

/-- The literal of a distance has the magnitude of the fraction. -/
theorem Divides.abs (h : Divides (.steps w) f e) (hl : (Literal.steps w).abs = some l) :
    Divides l |f| e := by
  cases h with
  | steps hf hpos =>
    obtain ⟨hden, -, rfl⟩ := fraction?_eq_some hf
    have hfraction := fraction?_withFraction hf (n := w.numerator.natAbs)
      (Int.natCast_ne_zero.mpr (Int.natAbs_ne_zero.mpr hden))
    have hmagnitude : (((w.numerator.natAbs : Int) : ℚ) / ((w.denominator.natAbs : Int) : ℚ)) =
        |(w.numerator : ℚ) / w.denominator| := by
      rw [abs_div, Int.natCast_natAbs, Int.natCast_natAbs, Int.cast_abs, Int.cast_abs]
    rw [hmagnitude] at hfraction
    replace hl : absSteps w = some l := hl
    rw [absSteps, if_neg (by rw [hf]; exact Option.some_ne_none _)] at hl
    have hsteps : l = Literal.steps (w.withFraction w.numerator.natAbs w.denominator.natAbs) := by
      split at hl
      · split at hl
        · cases hl
        · exact (Option.some.inj hl).symm
      · exact (Option.some.inj hl).symm
    rw [hsteps]
    exact .steps hfraction hpos

/-- A fraction of an equave lowers to what is strictly equal to its value. -/
theorem Divides.lowersTo_iff (h : Divides l f e)
    (hm : Monzo.ofTemperament s s.numberOfComponents f e = .ok m) (hk : k.value = .exact v)
    (hdomain : k.domain = .logarithmic) :
    Interval.LowersTo l s context memo k ↔ v.strictEquals s m = .ok true := by
  have hlowers := h.lowers hm context memo
  have hequal : k.strictEquals s { value := .exact m, domain := .logarithmic, literal := some l } =
      v.strictEquals s m := by
    rw [Interval.strictEquals, if_pos hdomain, hk]
    rfl
  constructor
  · rintro ⟨r, memo', hr, hstrict⟩
    cases hr.symm.trans hlowers
    exact hequal ▸ hstrict
  · intro hstrict
    exact ⟨_, memo, hlowers, hequal.trans hstrict⟩

end Literal

namespace Interval
open Literal

variable {s : Settings} {context context' : Option Context} {memo memo' memo'' : CommaMemo}
  {l : Literal} {w : Steps} {f e x : ℚ} {i k : Interval} {m : Monzo} {count : Nat}

/-- The literal of a distance is right when the sign of the size is that of the fraction. -/
theorem literal_of_abs (h : Divides (steps w) f e)
    (hm : Monzo.ofTemperament s s.numberOfComponents f e = .ok m) (hcents : m.cents == 0) :
    ∃ k, ({ value := .exact m, domain := .logarithmic, literal := some (steps w) } :
      Interval).abs s = .ok k ∧ ∀ l, k.literal = some l → ∀ context memo,
        (LowersTo l s context memo k ↔ m.isUnity ∨ (m.totalCents < 0 ↔ f < 0)) := by
  obtain ⟨hbounded, htime, -⟩ := Monzo.ofTemperament_ok hm
  have hpos := Monzo.residual_pos_of_ofTemperament h.equave_pos hm
  have hvalue := Monzo.pitchAbs_eq hbounded hpos hcents
  refine ⟨_, bind_eq_ok.mpr ⟨_, hvalue, rfl⟩, fun l hl context memo => ?_⟩
  have hdivides : Divides l |f| e := h.abs (of_within hl)
  have hlowered : ∃ n, Monzo.ofTemperament s s.numberOfComponents |f| e = .ok n ∧
      Monzo.Coincide (if f < 0 then m.reciprocal else m) n := by
    rcases lt_or_ge f 0 with hneg | hge
    · rw [abs_of_neg hneg, if_pos hneg]
      exact Monzo.exists_ofTemperament_neg h.equave_pos hneg.ne hm hcents
    · rw [abs_of_nonneg hge, if_neg (not_lt.mpr hge)]
      exact ⟨m, hm, .refl m⟩
  obtain ⟨n, hn, hcoincide⟩ := hlowered
  rw [hdivides.lowersTo_iff hn rfl rfl]
  exact Monzo.strictEquals_reciprocal_iff htime hpos hcents hcoincide

/-- The distance of a positive ratio to unison is the larger one of the ratio and its reciprocal,
and the literal of the distance of lowered steps lowers to the distance, exactly when the size in
doubles has the right sign, or for unity: below zero when the ratio is below one, and when the
fraction of the equave is below zero. -/
theorem distance_to_unison (s : Settings) :
    (∀ x, 0 < x → ∀ count m, Monzo.ofRatioOver s count x = .ok m →
      ∃ v, m.pitchAbs s = .ok (.exact v) ∧ v.isFractional ∧
        (v.toRatio = .ok (max x x⁻¹) ↔ x = 1 ∨ (m.totalCents < 0 ↔ x < 1))) ∧
    (∀ w context memo i memo' m, ((steps w).lower s context).Returns memo (.interval i) memo' →
      i.value = .exact m → m.isUncorrected → ∃ f k, w.fraction? = some f ∧ i.abs s = .ok k ∧
        ∀ l, k.literal = some l → ∀ context memo,
          (LowersTo l s context memo k ↔ m.isUnity ∨ (m.totalCents < 0 ↔ f < 0))) := by
  constructor
  · intro x hx count m hm
    exact (Monzo.IsPositive.of_ofRatioOver hx hm).pitchAbs
  · intro w context memo i memo' m hi hm hcents
    obtain ⟨f, e, n, hdivides, hn, rfl⟩ := exists_divides (l := steps w) trivial hi
    cases hm
    obtain ⟨k, hk, hl⟩ := literal_of_abs hdivides hn hcents
    cases hdivides with
    | steps hf hpos => exact ⟨f, k, hf, hk, hl⟩

/-- Two thirds is three halves away from unison, and seven of thirteen steps down a tritave are as
far away as seven steps up. -/
theorem distance_to_unison_twoThirds :
    let down : Literal := .steps { numerator := -7, denominator := 13, equaveNumerator := some 3 }
    let up : Literal := .steps { numerator := 7, denominator := 13, equaveNumerator := some 3 }
    (∃ m v, Monzo.ofRatioOver {} 3 (2 / 3) = .ok m ∧ m.pitchAbs {} = .ok (.exact v) ∧
      v.toRatio = .ok (3 / 2)) ∧
    ∃ i k, (down.lower {} none).Returns {} (.interval i) {} ∧ i.abs {} = .ok k ∧
      k.literal = some up ∧ LowersTo up {} none {} k := by
  intro down up
  have hsize : (Monzo.ofRatioOver {} 3 (2 / 3)).map (fun m => decide (m.totalCents < 0)) =
      .ok true := by decide +kernel
  have hsteps : (Monzo.ofTemperament {} 9 (-7 / 13) 3).map
      (fun m => (m.isUncorrected, decide (m.totalCents < 0))) = .ok (true, true) := by
    decide +kernel
  obtain ⟨hvalues, hliterals⟩ := distance_to_unison {}
  constructor
  · obtain ⟨m, hm, hneg⟩ := map_eq_ok.mp hsize
    obtain ⟨v, hv, -, hratio⟩ := hvalues (2 / 3) (by norm_num) 3 m hm
    refine ⟨m, v, hm, hv, ?_⟩
    have hlarger : max (2 / 3 : ℚ) (2 / 3)⁻¹ = 3 / 2 := by norm_num
    rw [← hlarger]
    exact hratio.mpr (.inr (iff_of_true (of_decide_eq_true hneg) (by norm_num)))
  · obtain ⟨m, hm, hvalue⟩ := map_eq_ok.mp hsteps
    rw [Prod.mk.injEq, decide_eq_true_eq] at hvalue
    have hdivides : Divides down (-7 / 13) 3 :=
      .steps (w := ⟨-7, 13, some 3, none⟩) rfl (by decide +kernel)
    have hi := hdivides.lowers hm none {}
    obtain ⟨f, k, hf, hk, hl⟩ := hliterals _ _ _ _ _ m hi rfl hvalue.1
    obtain rfl : (-7 : ℤ) / (13 : ℤ) = f := Option.some.inj hf
    obtain ⟨v, -, rfl⟩ := map_eq_ok.mp hk
    refine ⟨_, _, hi, hk, rfl, (hl up rfl none {}).mpr (.inr (iff_of_true hvalue.2 ?_))⟩
    norm_num

/-- The terms of this ratio round to one double, so that its size is that of one. It lies below one
and passes for its own distance to unison. A step down of its reciprocal keeps its value too, but
its literal is turned upwards. -/
theorem distance_to_unison_closeTerms :
    let a : ℚ := 1000000000000000003 / 1000000000000000009
    let down : Literal := .steps ⟨-1, 1, some 1000000000000000009, some 1000000000000000003⟩
    let up : Literal := .steps ⟨1, 1, some 1000000000000000009, some 1000000000000000003⟩
    (∃ m v, Monzo.ofRatio {} a = .ok m ∧ m.pitchAbs {} = .ok (.exact v) ∧
      v.toRatio = .ok a ∧ a ≠ max a a⁻¹) ∧
    ∃ i m k, (down.lower {} none).Returns {} (.interval i) {} ∧ i.value = .exact m ∧
      m.isUncorrected ∧ i.abs {} = .ok k ∧ k.literal = some up ∧ ¬ LowersTo up {} none {} k := by
  intro a down up
  constructor
  · have hpitch : (Monzo.ofRatio {} a >>= fun m => m.pitchAbs {}).map
        (fun v => (v.isExact, v.toRatio)) = .ok (true, .ok a) := by decide +kernel
    obtain ⟨v, hv, hvalue⟩ := map_eq_ok.mp hpitch
    obtain ⟨m, hm, hv⟩ := bind_eq_ok.mp hv
    cases v with
    | real r => cases hvalue
    | exact v =>
      have hlt : a < a⁻¹ := by norm_num [a]
      exact ⟨m, v, hm, hv, congrArg Prod.snd hvalue, (lt_max_of_lt_right hlt).ne⟩
  · have hrun : (do
        let m ← Monzo.ofTemperament {} 9 (-1) a⁻¹
        let n ← Monzo.ofTemperament {} 9 1 a⁻¹
        let i : Interval := { value := .exact m, domain := .logarithmic, literal := some down }
        let k ← i.abs {}
        let same ← k.value.strictEquals {} (.exact n)
        return (m.isUncorrected, k.value.isExact, k.literal, same)) =
          .ok (true, true, some up, false) := by decide +kernel
    obtain ⟨m, hm, hrun⟩ := bind_eq_ok.mp hrun
    obtain ⟨n, hn, hrun⟩ := bind_eq_ok.mp hrun
    obtain ⟨k, hk, hrun⟩ := bind_eq_ok.mp hrun
    obtain ⟨same, hsame, hrun⟩ := bind_eq_ok.mp hrun
    simp only [pure_eq_ok, Prod.mk.injEq] at hrun
    obtain ⟨hm0, hexact, hl, rfl⟩ := hrun
    have hdivides : ∀ n : Int, Divides (.steps ⟨n, 1, some 1000000000000000009,
        some 1000000000000000003⟩) n a⁻¹ := by
      intro n
      have hequave : ((1000000000000000009 : ℤ) : ℚ) / (1000000000000000003 : ℤ) = a⁻¹ := by
        norm_num [a]
      have hpos : 0 < ((1000000000000000009 : ℤ) : ℚ) / (1000000000000000003 : ℤ) := by norm_num
      rw [← hequave, ← div_one (n : ℚ)]
      exact .steps (fraction?_withFraction (w := ⟨1, 1, _, _⟩) rfl one_ne_zero) hpos
    refine ⟨_, m, k, (hdivides (-1)).lowers hm none {}, rfl, hm0, hk, hl, ?_⟩
    obtain ⟨v, -, hderive⟩ := bind_eq_ok.mp hk
    cases hderive
    cases v with
    | real r => cases hexact
    | exact v =>
      rw [(hdivides 1).lowersTo_iff hn rfl rfl]
      intro hsame'
      cases hsame.symm.trans hsame'

end Interval

end Intonation
