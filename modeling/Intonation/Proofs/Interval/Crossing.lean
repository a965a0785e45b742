import Intonation.Proofs.Interval.Measured

/-!
# Literals made across domains

Two linear operands make steps of an equal division of the octave, and steps of the octave move
onto a linear equave. Both literals are steps put together from numbers. An equave is only taken
when it is positive, but any integer is taken for a denominator: the literal of a division by
zero has no value.

## Main definitions

* `Steps.onto`: steps of another equave
* `Literal.IsNumberOrSteps`: the literals of the operands
* `Interval.Operand`: what they lower to

## Main statements

* `Operand.backslash`: the literal of a division of the octave
* `Operand.project`: the literal of steps moved onto an equave
* `literal_of_crossing`: when the two are sound
-/

namespace Intonation
open Double

namespace Steps

/-- Steps of an equave in place of their own. -/
def onto (w : Steps) (q : ℚ) : Steps :=
  { w with
    equaveNumerator := some q.num
    equaveDenominator := if q.den = 1 then none else some (q.den : Int) }

theorem equave?_onto (w : Steps) (q : ℚ) : (w.onto q).equave? = some q := by
  rw [onto, equave?]
  by_cases hden : q.den = 1
  · rw [if_pos hden]
    exact congrArg some ((Rat.den_eq_one_iff q).mp hden)
  · rw [if_neg hden]
    dsimp only [Option.map_some]
    split
    · next h => cases h
    · next h => exact absurd (Int.natCast_eq_zero.mp (Option.some.inj h)) q.den_ne_zero
    · next d _ h =>
      rw [← Option.some.inj h]
      exact congrArg some (Rat.num_div_den q)

theorem fraction?_onto (w : Steps) {f : ℚ} (q : ℚ) (h : w.fraction? = some f) :
    (w.onto q).fraction? = some f := by
  obtain ⟨hden, -, rfl⟩ := Literal.fraction?_eq_some h
  rw [fraction?, if_neg]
  · rfl
  · rintro (h0 | h0)
    · exact hden h0
    · rw [onto] at h0
      split at h0
      · cases h0
      · exact q.den_ne_zero (Int.natCast_eq_zero.mp (Option.some.inj h0))

end Steps

namespace Literal

variable {s : Settings} {context : Option Context} {memo memo' : CommaMemo} {l : Literal}
  {w : Steps} {f q : ℚ} {ns : List Int} {i : Interval}

/-- Integers, fractions and steps of an equal division. -/
def IsNumberOrSteps : Literal → Prop
  | integer _ | fraction .. | steps _ => True
  | _ => False

theorem Denotes.exactRatio?_eq {t : ℚ} (h : Denotes l q t) (hl : l.IsNumberOrSteps) :
    l.exactRatio? = some q ∧ t = 0 := by
  cases h with
  | integer n => exact ⟨rfl, rfl⟩
  | fraction hd => exact ⟨if_neg hd, rfl⟩
  | decimal => exact hl.elim

/-- Steps that have a value are a fraction of their equave. -/
theorem fraction?_of_lower (h : ((steps w).lower s context).Returns memo (.interval i) memo') :
    ∃ f m, w.fraction? = some f ∧
      Monzo.ofTemperament s s.numberOfComponents f (w.equave?.getD 2) = .ok m ∧
      i = { value := .exact m, domain := .logarithmic, literal := some (steps w) } := by
  obtain ⟨f, e, m, hdivides, hm, hi⟩ := exists_divides (l := steps w) trivial h
  cases hdivides with
  | steps hf hpos => exact ⟨f, m, hf, hm, hi⟩

/-- Steps of a division by zero have no value. -/
theorem not_lowers_overZero {n : Int} :
    ¬ ((steps { numerator := n, denominator := 0 }).lower s context).Returns memo
      (.interval i) memo' := by
  intro h
  obtain ⟨f, -, hf, -⟩ := fraction?_of_lower h
  cases hf

/-- The fraction of steps of one integer over another one. -/
theorem fraction?_of_ne_zero {n d : Int} (h : d ≠ 0) :
    ({ numerator := n, denominator := d } : Steps).fraction? = some ((n : ℚ) / d) := by
  rw [Steps.fraction?, if_neg]
  rintro (h0 | h0)
  · exact h h0
  · cases h0

/-- Steps of the octave moved onto an equave are the same fraction of it. -/
theorem divides_of_project {base : Literal} (hf : w.fraction? = some f)
    (hbase : base.exactRatio? = some q) (h : (steps w).project base = some l) :
    w.equave? = none ∧ 0 < q ∧ Divides l f q := by
  rw [Literal.project.eq_def, hbase] at h
  simp only at h
  split at h
  · cases h
  · next hnot =>
    cases h
    obtain ⟨hnone, hpos⟩ := not_or.mp hnot
    have hequave : w.equave? = none := by
      rw [Steps.equave?, not_not.mp hnone]
      rfl
    have honto : Divides (steps (w.onto q)) f (((w.onto q).equave?).getD 2) := by
      refine .steps (w.fraction?_onto q hf) ?_
      rw [w.equave?_onto]
      exact not_le.mp hpos
    rw [w.equave?_onto] at honto
    exact ⟨hequave, not_le.mp hpos, honto⟩

end Literal

namespace Interval
open Literal

variable {s : Settings} {context context' : Option Context}
  {memo memo₁ memo₂ memo' : CommaMemo} {a b l : Literal} {i j k : Interval}

/-- What integers and fractions, or steps, lower to. -/
inductive Operand (s : Settings) : Literal → Interval → Prop
  | ratio {l : Literal} {m : Monzo} (hl : l.exactRatio? = some m.ratio) (hm : m.Canonical s)
    (ht : m.time = 0) : Operand s l { value := .exact m, domain := .linear, literal := some l }
  | steps {w : Steps} {f : ℚ} {m : Monzo} (hf : w.fraction? = some f)
    (hm : Monzo.ofTemperament s s.numberOfComponents f (w.equave?.getD 2) = .ok m) :
    Operand s (.steps w)
      { value := .exact m, domain := .logarithmic, literal := some (.steps w) }

theorem Operand.of_ratio (hratio : l.isRatio) (hl : l.IsNumberOrSteps)
    (h : (l.lower s context).Returns memo (.interval i) memo') : Operand s l i := by
  have hval : l.isVal = false := by cases l <;> first | rfl | cases hratio
  obtain ⟨c, v, -, hv, hi⟩ := (lower_returns_iff hval).mp h
  cases spells_of_lowerValue hratio hv with
  | radical => cases hratio
  | @ratio _ q t m hd hm hq ht =>
    obtain ⟨hexact, rfl⟩ := hd.exactRatio?_eq hl
    rw [hd.domain] at hi
    cases hi
    exact .ratio (by rw [hexact, hq]) hm ht

theorem Operand.of_lower (hl : l.IsNumberOrSteps)
    (h : (l.lower s context).Returns memo (.interval i) memo') : Operand s l i := by
  cases l with
  | integer n => exact .of_ratio rfl hl h
  | fraction n d => exact .of_ratio rfl hl h
  | steps w =>
    obtain ⟨f, m, hf, hm, rfl⟩ := fraction?_of_lower h
    exact .steps hf hm
  | _ => exact hl.elim

/-! ## Steps of the octave -/

theorem of_divisionLiteral? {m n : Monzo} (h : divisionLiteral? (.exact m) (.exact n) = some l) :
    m.isIntegral ∧ n.isIntegral ∧
      l = .steps { numerator := m.ratio.num, denominator := n.ratio.num } := by
  rw [divisionLiteral?] at h
  split at h
  · next hboth =>
    obtain ⟨hm, hn⟩ := Bool.and_eq_true_iff.mp hboth
    cases h
    exact ⟨hm, hn, rfl⟩
  · cases h

/-- A power of the octave with the quotient of two ratios. -/
theorem pow_octave {octave m n : Monzo} {u v : Value} {ns : List Int} (he : IsEquave s 2 ns)
    (hoctave : Monzo.ofRatio s 2 = .ok octave) (hm : m.Canonical s) (hmt : m.time = 0)
    (hn : n.Canonical s) (hnt : n.time = 0) (hn0 : n.ratio ≠ 0)
    (hden : (m.ratio / n.ratio).den < s.maxPowDenominator)
    (hu : (Value.exact m).div s (.exact n) = .ok u) (hv : octave.pow s u = .ok v) :
    ∃ r, v = .exact r ∧ r.IsVector s ((Monzo.wholes ns).map (· * (m.ratio / n.ratio))) := by
  replace hu : (if n.residual = 0 then _ else _) = Except.ok u := hu
  rw [if_neg (mt hn.ratio_eq_zero_iff.mpr hn0)] at hu
  obtain ⟨y, hy, rfl⟩ := map_eq_ok.mp hu
  obtain ⟨hyc, hyr, hyt⟩ := hm.divNonzero hn hy
  rw [hmt, hnt, sub_zero] at hyt
  rw [Monzo.pow_canonical octave hyc hyt, hyr] at hv
  cases he.value.symm.trans hoctave
  have hvector : Monzo.IsVector s { exps := Monzo.wholes ns, residual := 1 }
      (Monzo.wholes ns) := ⟨rfl, rfl, rfl, he.canonical.uncorrected, he.canonical.bounded⟩
  exact hvector.powRatio hden hv

/-- Two operands make steps of the octave, which have a value unless the second one is zero. -/
theorem Operand.backslash (hs : s.Valid) (hi : Operand s a i) (hj : Operand s b j)
    (hden : ∀ p q, a.exactRatio? = some p → b.exactRatio? = some q →
      (p / q).den < s.maxPowDenominator)
    (hk : i.backslash s j = .ok k) (hl : k.literal = some l) (context : Option Context)
    (memo : CommaMemo) : LowersTo l s context memo k ↔ b.exactRatio? ≠ some 0 := by
  rw [Interval.backslash] at hk
  split at hk
  · cases hk
  · obtain ⟨_, hlinear, hk⟩ := bind_eq_ok.mp hk
    obtain ⟨octave, hoctave, hk⟩ := bind_eq_ok.mp hk
    obtain ⟨u, hu, hk⟩ := bind_eq_ok.mp hk
    obtain ⟨v, hv, hk⟩ := bind_eq_ok.mp hk
    -- only linear operands pass, and these are ratios
    cases hi with
    | steps => cases hlinear
    | @ratio a m ha hm hmt =>
      cases hj with
      | steps => cases hlinear
      | @ratio b n hb hn hnt =>
        cases hk
        obtain ⟨hmi, hni, rfl⟩ := of_divisionLiteral? (of_within hl)
        rw [hb, Ne, Option.some_inj]
        by_cases hn0 : n.ratio = 0
        · -- nothing checks the denominator before the literal is made
          refine iff_of_false ?_ (not_not.mpr hn0)
          rintro ⟨r, memo', hr, -⟩
          rw [hn0] at hr
          exact not_lowers_overZero hr
        · -- the value and the literal are one power of the octave
          refine iff_of_true ?_ hn0
          have hsplit := IsEquave.split_two hs.components_pos
          have he := IsEquave.of_ofRatio two_pos hoctave (by rw [hsplit])
          obtain ⟨r, rfl, hr⟩ :=
            pow_octave he hoctave hm hmt hn hnt hn0 (hden _ _ ha hb) hu hv
          have hnum : n.ratio.num ≠ 0 := Rat.num_ne_zero.mpr hn0
          have hfraction := fraction?_of_ne_zero (n := m.ratio.num) hnum
          rw [hm.num_ratio hmi, hn.num_ratio hni] at hfraction
          obtain ⟨w, hw, hwvector⟩ :=
            (Spans.part (.steps hfraction he) rfl).lowers hr context memo
          exact ⟨_, memo, hw, (hr.coincide hwvector).strictEquals hr.bounded⟩

/-! ## Steps of another equave -/

/-- Steps of the octave are a power of two. -/
theorem firstExponent_of_ofTemperament {f : ℚ} {m : Monzo} (hs : s.Valid)
    (hm : Monzo.ofTemperament s s.numberOfComponents f 2 = .ok m) :
    m.isPowerOfTwo ∧ m.firstExponent = f := by
  have hsplit := IsEquave.split_two hs.components_pos
  have he := isEquave_of_temperament two_pos (by rw [hsplit]) hm
  rw [he.ofTemperament] at hm
  have hexps : (Monzo.wholes (Prime.split s.primes 2).1).map (· * f) =
      f :: List.replicate (s.numberOfComponents - 1) 0 := by
    rw [he.of_octave]
    simp [Monzo.wholes]
  rw [hexps] at hm
  have hvector := Monzo.IsVector.of_checked hm rfl rfl rfl zero_beq_zero
  rw [Monzo.isPowerOfTwo, hvector.isEqualTemperament, Monzo.firstExponent, hvector.exps,
    Monzo.isFlat, Bool.true_and, List.all_eq_true]
  exact ⟨fun e he => decide_eq_true (List.eq_of_mem_replicate he), rfl⟩

/-- The literal of steps moved onto an equave has the value of the equave raised to the steps. -/
theorem Operand.project (hs : s.Valid) (hi : Operand s a i) (hj : Operand s b j)
    (hden : ∀ w f, a = .steps w → w.fraction? = some f → f.den < s.maxPowDenominator)
    (hk : i.project s j = .ok k) (hl : k.literal = some l) (context : Option Context)
    (memo : CommaMemo) : LowersTo l s context memo k := by
  obtain ⟨v, hv, hk⟩ := bind_eq_ok.mp hk
  cases hk
  obtain ⟨a', b', ha', hb', hl⟩ := of_combine? (of_within hl)
  cases hi with
  | ratio ha =>
    cases ha'
    rw [Literal.project.eq_def] at hl
    split at hl
    · cases ha
    · cases hl
  | @steps w f m hf hm =>
    cases ha'
    cases hj with
    | steps =>
      cases hb'
      rw [Literal.project.eq_def] at hl
      cases hl
    | @ratio b n hb hn hnt =>
      cases hb'
      obtain ⟨hnone, hpos, hdivides⟩ := divides_of_project hf hb hl
      rw [hnone] at hm
      obtain ⟨hpower, hfirst⟩ := firstExponent_of_ofTemperament hs hm
      -- the value is the power of the equave that the steps are of the octave
      replace hv : (if m.isPowerOfTwo then n.powRatio s m.firstExponent else _) = .ok v := hv
      rw [if_pos hpower, hfirst] at hv
      obtain ⟨p, y, rfl, hy, hcoincide⟩ :=
        hn.powRatio_coincide hnt (hden w f rfl hf) hpos hv
      -- a power coincides with the temperament that the new literal lowers to
      refine ⟨_, memo, hdivides.lowers hy context memo, hcoincide.strictEquals ?_⟩
      exact Monzo.bounded_congr hcoincide.exps.symm hcoincide.residual.symm hcoincide.cents.symm
        (Monzo.ofTemperament_ok hy).1

/-! ## Both -/

/-- The literal of a division of the octave is sound exactly when the divisor is not zero, and
the literal of steps moved onto an equave is always sound. -/
theorem literal_of_crossing (hs : s.Valid) (hla : a.IsNumberOrSteps) (hlb : b.IsNumberOrSteps)
    (hi : (a.lower s context).Returns memo (.interval i) memo₁)
    (hj : (b.lower s context).Returns memo₁ (.interval j) memo₂)
    (context' : Option Context) (memo' : CommaMemo) :
    (∀ k l, i.backslash s j = .ok k → k.literal = some l →
      (∀ p q, a.exactRatio? = some p → b.exactRatio? = some q →
        (p / q).den < s.maxPowDenominator) →
      (LowersTo l s context' memo' k ↔ b.exactRatio? ≠ some 0)) ∧
    (∀ k l, i.project s j = .ok k → k.literal = some l →
      (∀ w f, a = .steps w → w.fraction? = some f → f.den < s.maxPowDenominator) →
      LowersTo l s context' memo' k) := by
  have hoi := Operand.of_lower hla hi
  have hoj := Operand.of_lower hlb hj
  exact ⟨fun k l hk hl hden => hoi.backslash hs hoj hden hk hl context' memo',
    fun k l hk hl hden => hoi.project hs hoj hden hk hl context' memo'⟩

/-- Seven over twelve makes seven steps of the octave, and these move onto a fifth. -/
theorem literal_of_crossingFifth :
    let c := Literal.steps { numerator := 7, denominator := 12 }
    let d := Literal.steps
      { numerator := 7, denominator := 12, equaveNumerator := some 3, equaveDenominator := some 2 }
    ∃ i j k, ((Literal.integer 7).lower {} none).Returns {} (.interval i) {} ∧
      ((Literal.integer 12).lower {} none).Returns {} (.interval j) {} ∧
      i.backslash {} j = .ok k ∧ k.literal = some c ∧ LowersTo c {} none {} k ∧
    ∃ i j k, (c.lower {} none).Returns {} (.interval i) {} ∧
      ((Literal.fraction 3 2).lower {} none).Returns {} (.interval j) {} ∧
      i.project {} j = .ok k ∧ k.literal = some d ∧ LowersTo d {} none {} k := by
  intro c d
  have hseven : Literal.ofRatio 7 = .integer 7 := by decide +kernel
  have htwelve : Literal.ofRatio 12 = .integer 12 := by decide +kernel
  have hfifth : Literal.ofRatio (3 / 2) = .fraction 3 2 := by decide +kernel
  have hbackslash : (do
      let m ← Monzo.ofRatio {} 7
      let n ← Monzo.ofRatio {} 12
      let i : Interval := { value := .exact m, domain := .linear, literal := some (.integer 7) }
      let j : Interval := { value := .exact n, domain := .linear, literal := some (.integer 12) }
      let k ← i.backslash {} j
      return k.literal) = .ok (some c) := by decide +kernel
  have hproject : (do
      let m ← Monzo.ofTemperament {} 9 (7 / 12) 2
      let n ← Monzo.ofRatio {} (3 / 2)
      let i : Interval := { value := .exact m, domain := .logarithmic, literal := some c }
      let j : Interval := { value := .exact n, domain := .linear, literal := some (.fraction 3 2) }
      let k ← i.project {} j
      return k.literal) = .ok (some d) := by decide +kernel
  obtain ⟨m, hm, hbackslash⟩ := bind_eq_ok.mp hbackslash
  obtain ⟨n, hn, hbackslash⟩ := bind_eq_ok.mp hbackslash
  obtain ⟨k, hk, hl⟩ := bind_eq_ok.mp hbackslash
  obtain ⟨m', hm', hproject⟩ := bind_eq_ok.mp hproject
  obtain ⟨n', hn', hproject⟩ := bind_eq_ok.mp hproject
  obtain ⟨k', hk', hl'⟩ := bind_eq_ok.mp hproject
  have hi := lowers_ofRatio hm none {}
  have hj := lowers_ofRatio hn none {}
  have hc : Divides c (7 / 12) 2 := .steps (w := ⟨7, 12, none, none⟩) rfl (by decide +kernel)
  have hi' := hc.lowers hm' none {}
  have hj' := lowers_ofRatio hn' none {}
  rw [hseven] at hi
  rw [htwelve] at hj
  rw [hfifth] at hj'
  refine ⟨_, _, k, hi, hj, hk, Except.ok.inj hl, ?_, _, _, k', hi', hj', hk', Except.ok.inj hl', ?_⟩
  · refine ((literal_of_crossing Settings.valid_default (a := .integer 7) (b := .integer 12)
      trivial trivial hi hj none {}).1 k c hk (Except.ok.inj hl) ?_).mpr (by decide +kernel)
    rintro p q hp hq
    cases hp
    cases hq
    decide +kernel
  · refine (literal_of_crossing Settings.valid_default (a := c) (b := .fraction 3 2) trivial
      trivial hi' hj' none {}).2 k' d hk' (Except.ok.inj hl') ?_
    rintro w f hw hf
    obtain rfl := Literal.steps.inj (show Literal.steps ⟨7, 12, none, none⟩ = .steps w from hw)
    cases hf
    decide +kernel

/-- A power with an infinite exponent is left to doubles. -/
theorem exists_pow_of_infinite (s : Settings) {m : Monzo} {u : Value} (hm : m.isScalar)
    (hu : u.isScalar) (hreal : u.isExact = false) (hfinite : u.valueOf.isFinite = false) :
    ∃ v, m.pow s u = .ok v := by
  cases u with
  | exact e => cases hreal
  | real a =>
    replace hfinite : a.value.isFinite = false := hfinite
    have htime : m.time = 0 := of_decide_eq_true hm
    have hvalue : ∃ x, Approx.powValue m.valueOf a.value = .ok x := by
      rw [Approx.powValue]
      split
      · exact ⟨_, rfl⟩
      · simp only [hfinite, Bool.and_false, Bool.false_eq_true, if_false]
        exact ⟨_, rfl⟩
    obtain ⟨x, hx⟩ := hvalue
    refine ⟨.real ⟨0, x⟩, ?_⟩
    rw [Monzo.pow, hu]
    show Monzo.irrationalPow s m a.value = _
    rw [Monzo.irrationalPow, if_neg (not_not.mpr htime)]
    refine map_eq_ok.mpr ⟨⟨0, x⟩, bind_eq_ok.mpr ⟨0, if_pos htime, ?_⟩, rfl⟩
    exact bind_eq_ok.mpr ⟨x, hx, rfl⟩

/-- Eight over zero makes eight steps of nothing. The value is infinite, and the literal has
none. -/
theorem literal_of_crossingZero :
    let c := Literal.steps { numerator := 8, denominator := 0 }
    ∃ i j k, ((Literal.integer 8).lower {} none).Returns {} (.interval i) {} ∧
      ((Literal.integer 0).lower {} none).Returns {} (.interval j) {} ∧
      i.backslash {} j = .ok k ∧ k.literal = some c ∧ ¬ LowersTo c {} none {} k := by
  intro c
  have height : Literal.ofRatio 8 = .integer 8 := by decide +kernel
  have hzero : Literal.ofRatio 0 = .integer 0 := by decide +kernel
  have hrun : (do
      let m ← Monzo.ofRatio {} 8
      let n ← Monzo.ofRatio {} 0
      let octave ← Monzo.ofRatio {} 2
      let u ← m.div {} n
      return (m.isScalar && n.isScalar && octave.isScalar && u.isScalar,
        u.isExact || u.valueOf.isFinite, divisionLiteral? (.exact m) (.exact n))) =
          .ok (true, false, some c) := by decide +kernel
  obtain ⟨m, hm, hrun⟩ := bind_eq_ok.mp hrun
  obtain ⟨n, hn, hrun⟩ := bind_eq_ok.mp hrun
  obtain ⟨octave, hoctave, hrun⟩ := bind_eq_ok.mp hrun
  obtain ⟨u, hu, hrun⟩ := bind_eq_ok.mp hrun
  simp only [pure_eq_ok, Prod.mk.injEq, Bool.and_eq_true, Bool.or_eq_false_iff] at hrun
  obtain ⟨⟨⟨⟨hmt, hnt⟩, hot⟩, hut⟩, ⟨hreal, hfinite⟩, hl⟩ := hrun
  obtain ⟨v, hv⟩ := exists_pow_of_infinite {} hot hut hreal hfinite
  have hi := lowers_ofRatio hm none {}
  have hj := lowers_ofRatio hn none {}
  rw [height] at hi
  rw [hzero] at hj
  refine ⟨_, _, { value := v, domain := .logarithmic, literal := some c }, hi, hj, ?_, rfl, ?_⟩
  · have hscalar : (!(Value.exact m).isScalar || !(Value.exact n).isScalar) = false := by
      rw [show (Value.exact m).isScalar = true from hmt,
        show (Value.exact n).isScalar = true from hnt]
      rfl
    rw [Interval.backslash]
    simp only [hscalar, Bool.false_eq_true, if_false]
    refine bind_eq_ok.mpr ⟨(), rfl, bind_eq_ok.mpr ⟨octave, hoctave, ?_⟩⟩
    refine bind_eq_ok.mpr ⟨u, hu, bind_eq_ok.mpr ⟨v, hv, ?_⟩⟩
    rw [hl]
    rfl
  · rintro ⟨r, memo', hr, -⟩
    exact not_lowers_overZero hr

end Interval

end Intonation
