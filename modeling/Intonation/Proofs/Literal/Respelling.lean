import Intonation.Literal.Spelling
import Intonation.Proofs.Literal.Ratios
import Intonation.Proofs.Literal.SizeArithmetic
import Intonation.Proofs.Monzo.Equave
import Intonation.Proofs.Monzo.Number
import Intonation.Proofs.Monzo.Predicates

/-!
# Values as literals of a given kind

A value is respelled in the kind of a reference literal. The literal of a ratio lowers to the value
that the ratio has, and the literal of a size to the vector of the value checked once more, so both
give the value back when it is within the bounds in force. A radical is lowered through its
argument, whose exponents may exceed bounds that the value keeps.

## Main definitions

* `Monzo.restated`: the value that a literal of a value lowers to
* `Literal.Lowers`: a literal that lowers under some settings
* `Literal.Restates`: the literals of a value, by the way they are lowered

## Main statements

* `restates_of_respell`: what a respelling is
* `respell_lowers`: a respelling lowers to the value, if its radical has a value at all
-/

namespace Intonation

namespace Monzo
open Double Intonation.Prime

variable {s : Settings} {m : Monzo}

/-- A value built anew from its ratio or its vector: zero has no exponents, and a zero correction
has no sign. -/
def restated (m : Monzo) : Monzo where
  time := m.time
  exps := if m.residual = 0 then List.replicate m.components 0 else m.exps
  residual := m.residual

theorem restated_of_ne_zero (h0 : m.residual ≠ 0) :
    m.restated = { time := m.time, exps := m.exps, residual := m.residual } := by
  rw [restated, if_neg h0]

/-- Zero has a value under any settings, and any other value within the bounds. -/
theorem bounded_restated_iff (hs : s.Valid) (hm : m.isUncorrected) :
    boundsFault? s m.restated = none ↔ m.residual = 0 ∨ boundsFault? s m = none := by
  by_cases h0 : m.residual = 0
  · refine iff_of_true ?_ (.inl h0)
    refine bounded_of_uncorrected ?_ ?_ zero_beq_zero
    · rw [restated, if_pos h0]
      exact exponentFault?_eq_none_of_zero _ fun e he => List.eq_of_mem_replicate he
    · show Ratio.bits m.residual ≤ _
      rw [h0]
      exact hs.absurd_pos
  · rw [restated_of_ne_zero h0, or_iff_right h0]
    exact ⟨bounded_congr rfl rfl (.of_beq_zero zero_beq_zero hm),
      bounded_congr rfl rfl (.of_beq_zero hm zero_beq_zero)⟩

theorem number_restated (m : Monzo) : m.restated.number = m.number := by
  by_cases h0 : m.residual = 0
  · rw [number, number, show m.restated.residual = m.residual from rfl, h0, Rat.cast_zero, zero_mul,
      zero_mul]
  · rw [restated_of_ne_zero h0]
    rfl

theorem strictEquals_restated (hm : m.isUncorrected) (h0 : m.residual ≠ 0) (t : Settings) :
    m.restated.strictEquals t m = .ok true := by
  rw [restated_of_ne_zero h0]
  exact strictEquals_of_parts rfl rfl zero_beq_zero hm

/-- The ratio of a factored value has the value built anew, without time units. -/
theorem Factored.ofRatioOver_ratio (hm : m.Factored) (hfrac : m.isFractional)
    (hle : m.components ≤ tableSize) : Monzo.ofRatioOver s m.components m.ratio =
      Monzo.checked s { m.restated with time := 0 } := by
  rw [ofRatioOver_eq hle]
  by_cases h0 : m.residual = 0
  · rw [(ratio_eq_zero_iff hfrac).mpr h0, restated, if_pos h0, h0, split, if_pos rfl]
    have hzeros : wholes ((table.take m.components).map fun _ => 0) =
        List.replicate m.components 0 := by
      rw [List.map_const', wholes, List.map_replicate, Int.cast_zero, length_take_table hle]
    rw [hzeros]
  · obtain ⟨-, ns, hns⟩ := isFractional_iff.mp hfrac
    have hlen : ns.length = m.components := by rw [components, hns, length_wholes]
    rw [hm.split_ratio hns h0, List.take_of_length_le (by omega), ← hns, restated_of_ne_zero h0]

/-- The vector of a value is the value built anew. -/
theorem restated_of_isEqualTemperament (h : m.isEqualTemperament) :
    m.restated = { exps := m.exps } := by
  obtain ⟨htime, -, hres⟩ := isEqualTemperament_iff.mp h
  rw [restated_of_ne_zero (by rw [hres]; exact one_ne_zero), hres, htime]

end Monzo

namespace Literal
open Double Monzo

variable {s : Settings} {m : Monzo} {l reference : Literal} {simplify : Bool}
  {context : Option Context} {memo memo' : CommaMemo} {q : Quantity} {v : Value}

/-- A literal that lowers in some context, after some commas were looked up. -/
def Lowers (s : Settings) (l : Literal) : Prop :=
  ∃ context memo q memo', (lower s context l).Returns memo q memo'

/-- A literal that lowers has a value. -/
theorem Lowers.exists_value {x : Except Fault Value} (h : Lowers s l) (hval : l.isVal = false)
    (hx : ∀ c, lowerValue s c l = Memoized.ofExcept x) : ∃ v, x = .ok v := by
  obtain ⟨context, memo, q, memo', h⟩ := h
  obtain ⟨c, v, -, hv, -⟩ := (lower_returns_iff hval).mp h
  rw [hx] at hv
  exact ⟨v, (Memoized.returns_ofExcept.mp hv).1⟩

theorem lowers_of_value {x : Except Fault Value} (hs : s.Valid) (hval : l.isVal = false)
    (hx : ∀ c, lowerValue s c l = Memoized.ofExcept x) (hv : x = .ok v) : Lowers s l := by
  obtain ⟨c, hc⟩ := Context.exists_given hs.absurd_pos none
  refine ⟨none, [], _, [], (lower_returns_iff hval).mpr ⟨c, v, hc, ?_, rfl⟩⟩
  rw [hx]
  exact Memoized.returns_ofExcept.mpr ⟨hv, rfl⟩

/-- Steps that lower have a fraction and an equave with a value. -/
theorem Lowers.of_steps {w : Steps} (h : Lowers s (steps w)) :
    (∃ f, w.fraction? = some f) ∧ 0 < w.equave?.getD 2 ∧
      ∃ base, Monzo.ofRatio s (w.equave?.getD 2) = .ok base := by
  obtain ⟨v, hv⟩ := h.exists_value rfl (x := (lowerSteps s (steps w) w).map .exact) fun _ => rfl
  obtain ⟨m, hm, -⟩ := map_eq_ok.mp hv
  unfold lowerSteps at hm
  split at hm
  · cases hm
  · next f hf =>
    simp only at hm
    split at hm
    · cases hm
    · next hpos =>
      obtain ⟨-, -, base, hbase, -⟩ := ofTemperament_ok hm
      exact ⟨⟨f, hf⟩, not_le.mp hpos, base, hbase⟩

/-- Cents that lower have an octave with a value. -/
theorem Lowers.of_cents {d : Digits} (h : Lowers s (cents d false)) :
    ∃ base, Monzo.ofRatio s 2 = .ok base := by
  obtain ⟨v, hv⟩ := h.exists_value rfl (x := (lowerCents s d false).map .exact) fun _ => rfl
  obtain ⟨m, hm, -⟩ := map_eq_ok.mp hv
  obtain ⟨f, -, hm⟩ := bind_eq_ok.mp hm
  obtain ⟨-, -, base, hbase, -⟩ := ofTemperament_ok hm
  exact ⟨base, hbase⟩

/-! ## The literals of a value -/

/-- The literals of a value: those of its ratio, those whose value is its vector, and the radical
of its equave. -/
inductive Restates (s : Settings) (m : Monzo) : Literal → Prop
  | ratio {l : Literal} (hfrac : m.isFractional) (h : Denotes l m.ratio m.time) : Restates s m l
  | vector {l : Literal} (htemp : m.isEqualTemperament) (hdomain : l.domain = .logarithmic)
    (h : ∀ c, lowerValue s c l = Memoized.ofExcept ((checked s { exps := m.exps }).map .exact)) :
    Restates s m l
  | radical (htemp : m.isEqualTemperament) :
    Restates s m (radical (temperament m.exps).2 (temperament m.exps).1)

theorem restates_asInteger (hm : m.Factored) (hl : asInteger (.exact m) = some l) :
    Restates s m l := by
  obtain ⟨htime, hint, rfl⟩ := asInteger_eq_some_iff.mp hl
  have hfrac : m.isFractional := by
    rw [isIntegral, Bool.and_eq_true, Bool.and_eq_true] at hint
    exact hint.1.1
  have hden := ((hm.isIntegral_iff hfrac).mp hint).1
  refine .ratio hfrac ?_
  rw [htime, ← (Rat.den_eq_one_iff _).mp hden, Rat.num_intCast]
  exact .integer _

theorem expansion_ne_zero {n d : Int} (hd : d ≠ 0) (q : ℚ) : expansion n d q ≠ 0 := by
  unfold expansion
  simp only
  split
  · next h =>
    have hdvd := Nat.dvd_of_mod_eq_zero h.2
    exact (Nat.div_pos (Nat.le_of_dvd (Int.natAbs_pos.mpr hd) hdvd) q.den_pos).ne'
  · exact fun h => hd (Int.gcd_eq_zero_iff.mp h).2

/-- A fraction expanded by a factor. -/
theorem denotes_expanded (q : ℚ) {k : Nat} (hk : k ≠ 0) :
    Denotes (fraction (q.num * k) (q.den * k)) q 0 := by
  have hk' : (k : ℚ) ≠ 0 := by exact_mod_cast hk
  have hden : (q.den : Int) * k ≠ 0 :=
    mul_ne_zero (by exact_mod_cast q.den_ne_zero) (by exact_mod_cast hk)
  have h := Denotes.fraction (n := q.num * k) hden
  push_cast at h
  rwa [mul_div_mul_right _ _ hk', Rat.num_div_den] at h

theorem restates_asFraction {written : Option (Int × Int)}
    (hl : asFraction (.exact m) written = some l) : Restates s m l := by
  unfold asFraction at hl
  simp only at hl
  split at hl
  · next h =>
    rw [Bool.and_eq_true] at h
    refine .ratio h.2 ?_
    rw [show m.time = 0 from of_decide_eq_true h.1]
    have hplain := denotes_expanded m.ratio one_ne_zero
    rw [Nat.cast_one, mul_one, mul_one] at hplain
    split at hl
    · split at hl
      · cases hl
        exact hplain
      · next hd =>
        cases hl
        exact denotes_expanded _ (expansion_ne_zero hd _)
    · cases hl
      exact hplain
  · cases hl

theorem restates_asDecimal {flavor : DecimalFlavor} (hl : asDecimal (.exact m) flavor = some l) :
    Restates s m l := by
  obtain ⟨d, rfl, hd⟩ := exists_of_asDecimal hl
  unfold asDecimal at hl
  simp only at hl
  split at hl
  · next h =>
    rw [Bool.and_eq_true, decide_eq_true_eq, isDecimal, Bool.and_eq_true, Bool.and_eq_true] at h
    refine .ratio h.1.1.1 (.decimal ?_ hd h.2)
    rintro rfl
    cases hl
  · cases hl

/-- Steps of an equave that has a value denote the vector. -/
theorem restates_asSteps {w : Steps} (hlen : m.components = s.numberOfComponents)
    (href : Lowers s (steps w)) (hl : respell (.exact m) (steps w) simplify = some l) :
    Restates s m l := by
  obtain ⟨⟨f, hf⟩, hpos, base, hbase⟩ := href.of_steps
  obtain ⟨htemp, hequave, v, rfl, hv, hpart⟩ := exists_of_asSteps hf hpos hl
  refine .vector htemp rfl fun c => ?_
  show Memoized.ofExcept ((lowerSteps s _ v).map _) = _
  unfold lowerSteps
  rw [hpart, hv]
  simp only
  rw [if_neg (not_le.mpr hpos)]
  rw [Monzo.ofRatio, ← hlen] at hbase
  rw [← hlen]
  rcases hequave with hone | hequave
  · rw [show m.components = m.exps.length from rfl, ofTemperament_of_one hone hbase]
  · rw [← hequave] at hbase ⊢
    rw [show m.components = m.exps.length from rfl, ofTemperament_temperament hbase]

/-- A power of two has the exponents of the octave, times its first one. -/
theorem exps_of_isPowerOfTwo {ns : List Int} (he : IsEquave s 2 ns) (hm : m.isPowerOfTwo)
    (hlen : m.components = s.numberOfComponents) :
    m.exps = (wholes ns).map (· * m.firstExponent) := by
  rw [isPowerOfTwo, Bool.and_eq_true] at hm
  obtain ⟨-, hflat⟩ := hm
  have hpos := he.length
  rw [he.of_octave, ← hlen, components]
  rcases hes : m.exps with - | ⟨e, es⟩
  · rw [he.of_octave, ← hlen, components, hes] at hpos
    cases hpos
  · rw [hes, List.drop_one, List.tail_cons] at hflat
    rw [firstExponent, hes, List.headD_cons, List.length_cons, Nat.add_sub_cancel, wholes,
      List.map_map, List.map_cons, List.map_replicate]
    simpa using isFlat_iff.mp hflat

/-- Cents denote the vector of a power of two. -/
theorem restates_asCents {d : Digits} (hs : s.Valid) (hlen : m.components = s.numberOfComponents)
    (href : Lowers s (cents d false)) (hl : asCents (.exact m) = some l) : Restates s m l := by
  obtain ⟨base, hbase⟩ := href.of_cents
  have he := IsEquave.of_ofRatio two_pos hbase (by rw [IsEquave.split_two hs.components_pos])
  unfold asCents at hl
  simp only at hl
  split at hl
  · next htwo =>
    obtain ⟨d', rfl, hd'⟩ := exists_of_ofCents? hl
    have hpart : IsPart s (cents d' false) _ m.firstExponent :=
      .cents hd' (mul_div_cancel_right₀ _ (by norm_num)).symm he
    have hspans := Spans.part hpart (exps_of_isPowerOfTwo he htwo hlen)
    rw [isPowerOfTwo, Bool.and_eq_true] at htwo
    exact .vector htwo.1 rfl hspans.lowerValue_eq
  · cases hl

theorem restates_asMonzo (hlen : m.components = s.numberOfComponents)
    (hl : asMonzo (.exact m) = some l) : Restates s m l := by
  unfold asMonzo at hl
  simp only at hl
  split at hl
  · next htemp =>
    cases hl
    have hspans : Spans s (monzo { entries := trimZeros m.exps }) m.exps := by
      refine .vector ⟨rfl, rfl, rfl⟩ ?_
      rw [← hlen, components, padded_trimZeros]
    exact .vector htemp rfl hspans.lowerValue_eq
  · cases hl

theorem restates_asRadical (hl : asRadical (.exact m) = some l) : Restates s m l := by
  unfold asRadical at hl
  simp only at hl
  split at hl
  · next htemp =>
    cases hl
    exact .radical htemp
  · cases hl

/-- A respelling that is no placeholder is a literal of the value. -/
theorem restates_of_respell (hs : s.Valid) (hm : m.Factored)
    (hlen : m.components = s.numberOfComponents) (href : Lowers s reference)
    (hl : respell (.exact m) reference simplify = some l) (hconcrete : l.isAspiring = false) :
    Restates s m l := by
  cases reference with
  | integer => exact restates_asInteger hm hl
  | fraction => exact restates_asFraction hl
  | decimal => exact restates_asDecimal hl
  | steps => exact restates_asSteps hlen href hl
  | cents d real =>
    cases real with
    | false => exact restates_asCents hs hlen href hl
    | true => cases hl
  | monzo c =>
    replace hl : (if c.basis.isEmpty then asMonzo (.exact m) else none) = some l := hl
    split at hl
    · exact restates_asMonzo hlen hl
    · cases hl
  | radical => exact restates_asRadical hl
  | interval | pitch | aspiringInterval | aspiringPitch =>
    exact absurd hconcrete (by cases hl; nofun)
  | cent | val | hertz | second | superparticular => cases hl

/-! ## Lowering again -/

theorem Restates.isVal (h : Restates s m l) : l.isVal = false := by
  cases h with
  | ratio _ h => exact h.isVal
  | vector _ hdomain =>
    cases l <;> first | rfl | cases hdomain
  | radical => rfl

/-- The literal of a value lowers to the value built anew, unless it is a radical whose argument
has no value. -/
theorem Restates.lowerValue_eq (h : Restates s m l) (hs : s.Valid) (hm : m.Factored)
    (hlen : m.components = s.numberOfComponents)
    (hradical : ∀ e x, l = .radical e x → ∃ base, Monzo.ofRatio s e = .ok base) (c : Context) :
    lowerValue s c l = Memoized.ofExcept ((checked s m.restated).map .exact) := by
  cases h with
  | ratio hfrac h =>
    rw [h.lowerValue_eq, Monzo.ofRatio, ← hlen,
      hm.ofRatioOver_ratio hfrac (hlen.trans_le hs.components_le), checked, checked]
    -- the bounds do not depend on the time units
    rw [show boundsFault? s { m.restated with time := 0 } = boundsFault? s m.restated from rfl]
    cases boundsFault? s m.restated <;> rfl
  | vector htemp _ h => rw [h, restated_of_isEqualTemperament htemp]
  | radical htemp =>
    obtain ⟨base, hbase⟩ := hradical _ _ rfl
    rw [Monzo.ofRatio, ← hlen] at hbase
    show Memoized.ofExcept ((lowerRadical s _ _ _).map _) = _
    rw [lowerRadical, if_neg (not_le.mpr (temperament_pos _)), ← hlen, components,
      ofTemperament_temperament hbase, restated_of_isEqualTemperament htemp]

/-- The argument of a radical that lowers has a value. -/
theorem exists_base_of_radical {e x : ℚ} {c : Context}
    (h : (lowerValue s c (radical e x)).Returns memo v memo') :
    ∃ base, Monzo.ofRatio s e = .ok base := by
  obtain ⟨m, hm, -⟩ := map_eq_ok.mp (Memoized.returns_ofExcept.mp h).1
  replace hm : lowerRadical s _ e x = .ok m := hm
  unfold lowerRadical at hm
  split at hm
  · cases hm
  · obtain ⟨-, -, base, hbase, -⟩ := ofTemperament_ok hm
    exact ⟨base, hbase⟩

end Literal

end Intonation
