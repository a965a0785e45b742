import Intonation.Proofs.Interval.Sizes
import Intonation.Proofs.Monzo.Root

/-!
# Literals of measured and rounded sizes

One size measured by another is the quotient of their fractions, and a size rounded by another is
a whole multiple of it. The literals are written from the fractions alone. The values come from
the exact logarithm of one vector of exponents in another, which does not exist when the measuring
vector is zero: steps of an equave of one measure nothing, and their literals are unsound.

## Main definitions

* `Literal.Divides`: the fraction and the equave of cents or steps
* `Literal.Discerned`: the residual of an equave leaves a mark on the value

## Main statements

* `lowers_ofRatio`: the literal of a ratio lowers to the value of the ratio
* `Literal.Divides.div`, `Literal.Divides.roundTo`: the fractions of measured and rounded sizes
* `literal_of_measured`: when literals of measured and rounded sizes are sound
-/

namespace Intonation
open Double

namespace Literal

variable {s : Settings} {context : Option Context} {memo memo' : CommaMemo} {l a b : Literal}
  {f g e e' q : ℚ} {i : Interval} {m : Monzo}

/-! ## Fractions of an equave -/

/-- The fraction and the equave that cents other than real ones, or steps, denote. -/
inductive Divides : Literal → ℚ → ℚ → Prop
  | cents {d : Digits} {q : ℚ} (hd : d.toRatio = .ok q) : Divides (cents d false) (q / 1200) 2
  | steps {w : Steps} {f : ℚ} (hf : w.fraction? = some f) (hpos : 0 < w.equave?.getD 2) :
    Divides (steps w) f (w.equave?.getD 2)

/-- Cents other than real ones, and steps. -/
def IsDivision : Literal → Prop
  | cents _ real => real = false
  | steps _ => True
  | _ => False

theorem Divides.isVal (h : Divides l f e) : l.isVal = false := by cases h <;> rfl

theorem Divides.domain (h : Divides l f e) : l.domain = .logarithmic := by cases h <;> rfl

theorem Divides.equave_pos (h : Divides l f e) : 0 < e := by
  cases h with
  | cents => norm_num
  | steps hf hpos => exact hpos

/-- The value of cents or steps is the fraction of the equave. -/
theorem Divides.exactValue (h : Divides l f e) :
    l.exactValue s = Monzo.ofTemperament s s.numberOfComponents f e := by
  cases h with
  | cents hd =>
    show lowerCents s _ false = _
    rw [lowerCents, hd]
    rfl
  | steps hf hpos =>
    show lowerSteps s _ _ = _
    rw [lowerSteps, hf]
    exact if_neg (not_le.mpr hpos)

theorem Divides.lowerValue_eq (h : Divides l f e) (c : Context) : lowerValue s c l =
    Memoized.ofExcept ((Monzo.ofTemperament s s.numberOfComponents f e).map .exact) := by
  rw [← h.exactValue]
  cases h <;> rfl

/-- Cents and steps lower to the fraction of the equave, in any context. -/
theorem Divides.lowers (h : Divides l f e)
    (hm : Monzo.ofTemperament s s.numberOfComponents f e = .ok m) (context : Option Context)
    (memo : CommaMemo) : (l.lower s context).Returns memo
      (.interval { value := .exact m, domain := .logarithmic, literal := some l }) memo := by
  have hbounded := (Monzo.ofTemperament_ok hm).1
  obtain ⟨c, hc⟩ := Context.exists_given (Monzo.one_le_absurdExponent hbounded) context
  refine (lower_returns_iff h.isVal).mpr ⟨c, .exact m, hc, ?_, by rw [h.domain]⟩
  rw [h.lowerValue_eq, hm]
  exact Memoized.returns_ofExcept.mpr ⟨rfl, rfl⟩

/-- Cents and steps that have a value have a fraction and an equave. -/
theorem exists_divides_of_exactValue (hl : l.IsDivision) (h : l.exactValue s = .ok m) :
    ∃ f e, Divides l f e := by
  cases l with
  | cents d real =>
    obtain rfl : real = false := hl
    obtain ⟨q, hq, -⟩ := bind_eq_ok.mp h
    exact ⟨_, _, .cents hq⟩
  | steps w =>
    replace h : lowerSteps s _ w = .ok m := h
    rw [lowerSteps] at h
    split at h
    · cases h
    · next f hf =>
      simp only at h
      split at h
      · cases h
      · next hpos => exact ⟨_, _, .steps hf (not_le.mp hpos)⟩
  | _ => exact hl.elim

/-- Cents and steps that lower have a fraction and an equave. -/
theorem exists_divides (hl : l.IsDivision)
    (h : (l.lower s context).Returns memo (.interval i) memo') : ∃ f e m, Divides l f e ∧
      Monzo.ofTemperament s s.numberOfComponents f e = .ok m ∧
      i = { value := .exact m, domain := .logarithmic, literal := some l } := by
  have hval : l.isVal = false := by cases l <;> first | rfl | cases hl
  obtain ⟨c, v, -, hv, hi⟩ := (lower_returns_iff hval).mp h
  have hvalue : lowerValue s c l = Memoized.ofExcept ((l.exactValue s).map .exact) := by
    cases l with
    | cents | steps => rfl
    | _ => exact hl.elim
  rw [hvalue] at hv
  obtain ⟨m, hm, rfl⟩ := map_eq_ok.mp (Memoized.returns_ofExcept.mp hv).1
  obtain ⟨f, e, hfe⟩ := exists_divides_of_exactValue hl hm
  rw [hfe.exactValue] at hm
  rw [hfe.domain] at hi
  cases hi
  exact ⟨f, e, m, hfe, hm, rfl⟩

/-- The exponents of an equave over the tracked primes, however much of it they leave. -/
def equaveExponents (s : Settings) (e : ℚ) : List ℚ := Monzo.wholes (Prime.split s.primes e).1

/-- A fraction of an equave without correction and residual is a vector. -/
theorem isVector_of_ofTemperament (h : Monzo.ofTemperament s s.numberOfComponents f e = .ok m)
    (hm : m.isEqualTemperament) : m.IsVector s ((equaveExponents s e).map (· * f)) := by
  have hvector := Monzo.IsVector.of_isEqualTemperament hm (Monzo.ofTemperament_ok h).1
  rwa [(Monzo.PowerOf.of_ofTemperament h).exps] at hvector

/-! ## Measuring -/

section Cents

variable {d d' : Digits} {p : ℚ}

theorem div_cents (hd : d.toRatio = .ok p) (hd' : d'.toRatio = .ok q) :
    Literal.div (cents d false) (cents d' false) =
      .ok (if q = 0 then none else some (ofRatio (p / q))) := by
  show d.toRatio >>= _ = _
  rw [hd]
  show d'.toRatio.map some >>= _ = _
  rw [hd']
  rfl

theorem div_cents_steps (hd : d.toRatio = .ok p) (w : Steps) :
    Literal.div (cents d false) (steps w) = .ok none := by
  show d.toRatio >>= _ = _
  rw [hd]
  rfl

theorem roundTo_cents (hd : d.toRatio = .ok p) (hd' : d'.toRatio = .ok q) :
    Literal.roundTo s (cents d false) (cents d' false) =
      .ok (if q = 0 then none else ofCents? (Ratio.nearestInteger (p / q) * q)) := by
  show d.toRatio.map some >>= _ = _
  rw [hd]
  show d'.toRatio.map some >>= _ = _
  rw [hd']
  rfl

theorem roundTo_cents_steps (hd : d.toRatio = .ok p) (w : Steps) :
    Literal.roundTo s (cents d false) (steps w) = .ok none := by
  show d.toRatio.map some >>= _ = _
  rw [hd]
  rfl

theorem roundTo_steps_cents (w : Steps) (hd : d.toRatio = .ok p) :
    Literal.roundTo s (steps w) (cents d false) = .ok none := by
  show d.toRatio.map some >>= _ = _
  rw [hd]
  rfl

end Cents

/-- Steps are measured by steps of their own equave that are not zero. -/
theorem divSteps_eq_some {v w : Steps} (hv : v.fraction? = some f) (hw : w.fraction? = some g)
    (h : divSteps v w = some l) : v.equave? = w.equave? ∧ g ≠ 0 ∧ l = ofRatio (f / g) := by
  rw [divSteps, hv, hw] at h
  split at h
  · cases h
  · next hequave =>
    simp only at h
    split at h
    · cases h
    · next hg =>
      cases h
      exact ⟨not_not.mp hequave, hg, rfl⟩

/-- Steps are rounded to a whole multiple of steps of their own equave. -/
theorem roundSteps_eq_some {v w : Steps} (hv : v.fraction? = some f) (hw : w.fraction? = some g)
    (h : roundSteps v w = some l) : v.equave? = w.equave? ∧ g ≠ 0 ∧
      ∃ u : Steps, l = steps u ∧ u.equave? = w.equave? ∧
        u.fraction? = some (g * Ratio.nearestInteger (f / g)) := by
  rw [roundSteps, hv, hw] at h
  split at h
  · cases h
  · next hequave =>
    simp only at h
    split at h
    · cases h
    · next hg =>
      cases h
      obtain ⟨hden, -, hgq⟩ := fraction?_eq_some hw
      have hfraction := fraction?_withFraction hw
        (n := Ratio.nearestInteger (f / g) * w.numerator) hden
      rw [Int.cast_mul, mul_div_assoc, hgq, mul_comm _ g] at hfraction
      exact ⟨not_not.mp hequave, hg, _, rfl, rfl, hfraction⟩

/-- The literal of a quotient of sizes is that of the quotient of their fractions. -/
theorem Divides.div (ha : Divides a f e) (hb : Divides b g e') (h : a.div b = .ok (some l)) :
    e = e' ∧ g ≠ 0 ∧ l = ofRatio (f / g) := by
  cases ha with
  | @cents d p hd =>
    cases hb with
    | @cents d' q hd' =>
      rw [div_cents hd hd'] at h
      replace h : (if q = 0 then none else some (ofRatio (p / q))) = some l := Except.ok.inj h
      split at h
      · cases h
      · next hq =>
        cases h
        refine ⟨rfl, div_ne_zero hq (by norm_num), ?_⟩
        rw [div_div_div_cancel_right₀ (by norm_num)]
    | steps =>
      rw [div_cents_steps hd] at h
      cases h
  | @steps w f hf hpos =>
    cases hb with
    | cents hd' => cases h
    | @steps w' g hg hpos' =>
      obtain ⟨hequave, hg0, hl⟩ := divSteps_eq_some hf hg (Except.ok.inj h)
      exact ⟨by rw [hequave], hg0, hl⟩

/-- The literal of a rounded size is a whole multiple of the size that it is rounded by. -/
theorem Divides.roundTo (ha : Divides a f e) (hb : Divides b g e')
    (h : a.roundTo s b = .ok (some l)) :
    e = e' ∧ g ≠ 0 ∧ Divides l (g * Ratio.nearestInteger (f / g)) e := by
  cases ha with
  | @cents d p hd =>
    cases hb with
    | @cents d' q hd' =>
      rw [roundTo_cents hd hd'] at h
      replace h : (if q = 0 then none else ofCents? (Ratio.nearestInteger (p / q) * q)) =
        some l := Except.ok.inj h
      split at h
      · cases h
      · next hq =>
        obtain ⟨digits, rfl, hdigits⟩ := exists_of_ofCents? h
        refine ⟨rfl, div_ne_zero hq (by norm_num), ?_⟩
        rw [div_div_div_cancel_right₀ (by norm_num), div_mul_eq_mul_div, mul_comm q]
        exact .cents hdigits
    | steps =>
      rw [roundTo_cents_steps hd] at h
      cases h
  | @steps w f hf hpos =>
    cases hb with
    | cents hd' =>
      rw [roundTo_steps_cents w hd'] at h
      cases h
    | @steps w' g hg hpos' =>
      obtain ⟨hequave, hg0, u, rfl, hu, hfraction⟩ :=
        roundSteps_eq_some hf hg (Except.ok.inj h)
      rw [hequave, ← hu]
      exact ⟨rfl, hg0, .steps hfraction (hu ▸ hpos')⟩

/-! ## Lowering the results -/

/-- The literal of a ratio lowers to the value of the ratio. -/
theorem lowers_ofRatio (h : Monzo.ofRatio s q = .ok m) (context : Option Context)
    (memo : CommaMemo) : ((ofRatio q).lower s context).Returns memo
      (.interval { value := .exact m, domain := .linear, literal := some (ofRatio q) }) memo := by
  have hdenotes := denotes_ofRatio q
  obtain ⟨hm, -, htime⟩ := Monzo.canonical_ofRatio h
  obtain ⟨c, hc⟩ := Context.exists_given (Monzo.one_le_absurdExponent hm.bounded) context
  have hsame : { m with time := (0 : ℚ) } = m := by rw [← htime]
  have hlowers := hdenotes.lowers h c memo
  rw [hsame] at hlowers
  exact (lower_returns_iff hdenotes.isVal).mpr ⟨c, _, hc, hlowers, by rw [hdenotes.domain]⟩

theorem isRatio_ofRatio (q : ℚ) : (ofRatio q).isRatio := by
  rw [ofRatio]
  split <;> rfl

/-- The steps leave no part of their equave out, or the part that the tracked primes leave of it
shows in the correction of the value. -/
def Discerned (s : Settings) (l : Literal) : Prop :=
  ∀ f e, Divides l f e → Monzo.Discerned (Prime.split s.primes e).2 f

theorem Divides.equave_unique (h : Divides l f e) (h' : Divides l g e') : e = e' := by
  cases h <;> cases h' <;> rfl

/-- Nothing is left out of an equave that the tracked primes factor completely. -/
theorem Divides.discerned (h : Divides l f e) (he : (Prime.split s.primes e).2 = 1) :
    l.Discerned s := by
  intro f' e' h' hnone
  rw [← h.equave_unique h', he, Ratio.pow?_one] at hnone
  cases hnone

/-- An equave whose residual would show, but does not, has none. -/
theorem Divides.residual_eq_one (h : Divides l f e) (hf : f ≠ 0) (hl : l.Discerned s)
    (hm : Monzo.ofTemperament s s.numberOfComponents f e = .ok m) (ht : m.isEqualTemperament) :
    (Prime.split s.primes e).2 = 1 := by
  have hpos : 0 < (Prime.split s.primes e).2 := Monzo.residual_pos h.equave_pos
  have hvector := isVector_of_ofTemperament hm ht
  rcases (Monzo.PowerOf.of_ofTemperament hm).rest with ⟨hpow, -⟩ | ⟨hnone, -, x, hx, halike⟩
  · have hone : Ratio.pow? (Prime.split s.primes e).2 f = some 1 := hvector.residual ▸ hpow
    obtain ⟨-, hroot⟩ := (Ratio.pow?_eq_some_iff hpos).mp hone
    rw [one_pow] at hroot
    have hnum : f.num ≠ 0 := Rat.num_ne_zero.mpr hf
    by_contra hne
    exact hnum ((zpow_eq_one_iff_right₀ hpos.le hne).mp hroot.symm)
  · exact absurd (halike.beq_zero hvector.uncorrected) (hl f e h hnone x hx)

theorem Divides.isPart {ns : List Int} (h : Divides l f e) (he : IsEquave s e ns) :
    IsPart s l ns f := by
  cases h with
  | cents hd => exact .cents hd rfl he
  | steps hf hpos => exact .steps hf he

end Literal

namespace Monzo

variable {s : Settings} {m n : Monzo} {es fs : List ℚ}

/-- Nothing is measured by unity: the logarithm is left to doubles. -/
theorem IsVector.log_unity (hm : m.IsVector s es) (hn : n.IsVector s fs)
    (hlen : es.length = fs.length) (hunity : n.isUnity) : m.log s n = realLog m n := by
  have hzero := hn.isUnity_iff.mp hunity
  have hnone : exponentQuotient? es fs = none := by
    rw [exponentQuotient?, List.find?_eq_none.mpr]
    intro p hp
    have hb : p.2 = 0 := hzero p.2 (List.of_mem_zip hp).2
    simp [hb]
  rw [hm.log_quotient hn hlen, hnone]

end Monzo

/-! ## Measured and rounded intervals -/

namespace Interval
open Literal

variable {s : Settings} {context context' : Option Context}
  {memo memo₁ memo₂ memo₃ memo' memo'' : CommaMemo}
  {a b l : Literal} {i j k : Interval} {m n : Monzo}

/-- A literal lowers to the value of an interval. -/
def LowersTo (l : Literal) (s : Settings) (context : Option Context) (memo : CommaMemo)
    (k : Interval) : Prop :=
  ∃ (r : Interval) (memo' : CommaMemo), (l.lower s context).Returns memo (.interval r) memo' ∧
    k.strictEquals s r = .ok true

/-- Two lowered sizes, which are vectors. -/
structure Measurable (s : Settings) (i j : Interval) (a b : Literal) (m n : Monzo) (f g e e' : ℚ) :
    Prop where
  left : i = { value := .exact m, domain := .logarithmic, literal := some a }
  right : j = { value := .exact n, domain := .logarithmic, literal := some b }
  left_divides : Divides a f e
  right_divides : Divides b g e'
  left_vector : m.IsVector s ((equaveExponents s e).map (· * f))
  right_vector : n.IsVector s ((equaveExponents s e').map (· * g))
  right_value : Monzo.ofTemperament s s.numberOfComponents g e' = .ok n

/-- One size measured by another. -/
theorem Measurable.div {f g e e' : ℚ} (h : Measurable s i j a b m n f g e e')
    (hk : i.div s j = .ok k) (hl : k.literal = some l) (context : Option Context)
    (memo : CommaMemo) : LowersTo l s context memo k ↔ ¬ n.isUnity := by
  obtain ⟨rfl, rfl, ha, hb, hm, hn, -⟩ := h
  obtain ⟨x, hx, hk⟩ := bind_eq_ok.mp hk
  obtain ⟨-, -, hk⟩ := bind_eq_ok.mp hk
  obtain ⟨v, hv, hk⟩ := bind_eq_ok.mp hk
  replace hv : m.log s n = .ok v := hv
  cases hk
  obtain rfl := of_within hl
  obtain ⟨rfl, -, rfl⟩ := ha.div hb hx
  have hunity := hn.isUnity_iff
  rw [List.forall_mem_map] at hunity
  by_cases hzero : ∀ x ∈ equaveExponents s e, x * g = 0
  · -- the value is real, and no ratio lowers to a real value
    have hn1 : n.isUnity := hunity.mpr hzero
    rw [hm.log_unity hn (by rw [List.length_map, List.length_map]) hn1] at hv
    obtain ⟨y, -, rfl⟩ := map_eq_ok.mp hv
    refine iff_of_false ?_ (not_not.mpr hn1)
    rintro ⟨r, memo', hr, hequal⟩
    obtain ⟨c, w, -, hw, hr⟩ := (lower_returns_iff (denotes_ofRatio (f / g)).isVal).mp hr
    cases hr
    obtain ⟨p, rfl, -⟩ := (spells_of_lowerValue (isRatio_ofRatio (f / g)) hw).exists_exact
    rw [Interval.strictEquals] at hequal
    split at hequal <;> cases hequal
  · -- an exponent that is not zero tells the quotient of the fractions
    rw [not_forall] at hzero
    obtain ⟨x, hzero⟩ := hzero
    obtain ⟨hmem, hne⟩ := Classical.not_imp.mp hzero
    rw [hm.log_eq hn ⟨x, hmem, hne⟩] at hv
    obtain ⟨r, hr, rfl⟩ := map_eq_ok.mp hv
    refine iff_of_true ⟨_, memo, lowers_ofRatio hr context memo, ?_⟩ fun h => ?_
    · obtain ⟨hcanonical, -, -⟩ := Monzo.canonical_ofRatio hr
      exact (Monzo.Coincide.refl r).strictEquals hcanonical.bounded
    · exact hne (hunity.mp h x hmem)

/-- One size rounded to whole multiples of another. -/
theorem Measurable.roundTo {f g e e' : ℚ} (hs : s.Valid) (h : Measurable s i j a b m n f g e e')
    (hdiscerned : b.Discerned s) (hunity : ¬ n.isUnity) (hk : i.roundTo s j = .ok k)
    (hl : k.literal = some l) (context : Option Context) (memo : CommaMemo) :
    LowersTo l s context memo k := by
  obtain ⟨rfl, rfl, ha, hb, hm, hn, hvalue⟩ := h
  obtain ⟨-, -, hk⟩ := bind_eq_ok.mp hk
  obtain ⟨x, hx, hk⟩ := bind_eq_ok.mp hk
  obtain ⟨v, hv, hk⟩ := bind_eq_ok.mp hk
  replace hv : m.pitchRoundTo s n = .ok v := hv
  cases hk
  obtain rfl := of_within hl
  obtain ⟨rfl, hg, hdivides⟩ := ha.roundTo hb hx
  -- the equave is a product of tracked primes
  have hresidual := hb.residual_eq_one hg hdiscerned hvalue hn.isEqualTemperament
  have hequave := isEquave_of_temperament hb.equave_pos hresidual hvalue
  have hne : ∃ x ∈ equaveExponents s e, x * g ≠ 0 := by
    by_contra hzero
    refine hunity (hn.isUnity_iff.mpr (List.forall_mem_map.mpr fun x hx => ?_))
    by_contra hxg
    exact hzero ⟨x, hx, hxg⟩
  -- the value is the power with the nearest integer to the quotient of the fractions
  obtain ⟨exponent, hexponent, hv⟩ := bind_eq_ok.mp hv
  rw [hm.log_eq hn hne] at hexponent
  obtain ⟨r, hr, rfl⟩ := map_eq_ok.mp hexponent
  obtain ⟨hcanonical, hratio, -⟩ := Monzo.canonical_ofRatio hr
  have hnearest : (Value.exact r).nearestInteger? = some (Ratio.nearestInteger (f / g)) := by
    rw [Value.nearestInteger?, if_pos hcanonical.isFractional, hratio]
  simp only [hnearest] at hv
  -- whole powers have the least denominator there is
  have hden : ((Ratio.nearestInteger (f / g) : Int) : ℚ).den < s.maxPowDenominator := by
    rw [Rat.den_intCast]
    exact hs.pow_gt_one
  obtain ⟨p, rfl, hp⟩ := hn.powRatio hden hv
  have hspans : l.Spans s ((Monzo.wholes (Prime.split s.primes e).1).map
      (· * (g * Ratio.nearestInteger (f / g)))) := .part (hdivides.isPart hequave) rfl
  have hexps : ((equaveExponents s e).map (· * g)).map (· * (Ratio.nearestInteger (f / g) : ℚ)) =
      (Monzo.wholes (Prime.split s.primes e).1).map (· * (g * Ratio.nearestInteger (f / g))) := by
    rw [List.map_map]
    refine List.map_congr_left fun x _ => ?_
    rw [Function.comp_apply, mul_assoc]
  rw [hexps] at hp
  obtain ⟨w, hw, hwvector⟩ := hspans.lowers hp context memo
  exact ⟨_, memo, hw, (hp.coincide hwvector).strictEquals hp.bounded⟩

end Interval

end Intonation
