import Intonation.Proofs.Literal.Lowering
import Intonation.Proofs.Monzo.Multiples
import Intonation.Proofs.Monzo.Temperament
import Intonation.Proofs.Ratio.Decimal

/-!
# Literals of sizes

Cents and steps denote a fraction of an equave that the tracked primes factor completely, and
vectors denote their entries. A literal of a size spans the vector of exponents of its value.

## Main definitions

* `IsEquave`: the exponents of an equave
* `Literal.IsPart`: the equave and the fraction that cents or steps denote
* `Literal.Spans`: the vector that a literal of a size denotes

## Main statements

* `Spans.lowers`: a literal lowers to the vector that it spans
* `Spans.neg`, `Spans.scale`, `IsPart.divide`: reversing, scaling and dividing
-/

namespace Intonation
open Double Monzo

/-- The exponents of an equave that the tracked primes factor completely. -/
structure IsEquave (s : Settings) (equave : ℚ) (ns : List Int) : Prop where
  pos : 0 < equave
  value : ofRatio s equave = .ok { exps := wholes ns, residual := 1 }

namespace IsEquave

variable {s : Settings} {equave : ℚ} {ns ks : List Int}

theorem wholes_injective (h : wholes ns = wholes ks) : ns = ks := by
  rw [← map_num_wholes ns, h, map_num_wholes]

theorem canonical (h : IsEquave s equave ns) :
    Canonical s { exps := wholes ns, residual := 1 } := (canonical_ofRatio h.value).1

theorem length (h : IsEquave s equave ns) : ns.length = s.numberOfComponents := by
  rw [← h.canonical.components_length, components, length_wholes]

theorem eq_powerProduct (h : IsEquave s equave ns) :
    equave = Prime.powerProduct s.primes ns := by
  have hq := (canonical_ofRatio h.value).2.1
  rwa [ratio_eq_of_wholes h.length rfl, one_mul, eq_comm] at hq

theorem unique (h : IsEquave s equave ns) (h' : IsEquave s equave ks) : ns = ks := by
  have hv := h.value
  rw [h'.value] at hv
  exact wholes_injective (congrArg Monzo.exps (Except.ok.inj hv)).symm

/-- The exponents of an equave are the only ones that multiply to it. -/
theorem eq_of_powerProduct (h : IsEquave s equave ns) (hlen : ks.length = s.numberOfComponents)
    (hks : equave = Prime.powerProduct s.primes ks) : ks = ns := by
  have hsplit : ∀ {es : List Int}, es.length = s.numberOfComponents →
      equave = Prime.powerProduct s.primes es → Prime.split s.primes equave = (es, 1) := by
    intro es hes heq
    exact Prime.split_eq_of_eq_mul s.distinct_primes (hes.trans h.canonical.length_primes.symm)
      one_ne_zero (.one _) (by rw [one_mul, heq])
  have hk := hsplit hlen hks
  rw [hsplit h.length h.eq_powerProduct, Prod.mk.injEq] at hk
  exact hk.1.symm

/-- An equave that has a value and that the tracked primes factor completely. -/
theorem of_ofRatio {m : Monzo} (hpos : 0 < equave) (hm : ofRatio s equave = .ok m)
    (hsplit : (Prime.split s.primes equave).2 = 1) :
    IsEquave s equave (Prime.split s.primes equave).1 := by
  refine ⟨hpos, ?_⟩
  obtain ⟨-, hchecked⟩ := ofRatioOver_eq_ok_iff.mp hm
  obtain ⟨-, rfl⟩ := checked_eq_ok_iff.mp hchecked
  rw [hm]
  show Except.ok (⟨0, _, (Prime.split s.primes equave).2, 0⟩ : Monzo) = _
  rw [hsplit]
  rfl

/-- A fraction of an equave is a multiple of its exponents. -/
theorem ofTemperament (h : IsEquave s equave ns) (fraction : ℚ) :
    Monzo.ofTemperament s s.numberOfComponents fraction equave =
      checked s { exps := (wholes ns).map (· * fraction) } :=
  ofTemperament_of_pow h.value (Ratio.pow?_one fraction)

/-! ## The octave -/

theorem split_two (h : 1 ≤ s.numberOfComponents) :
    Prime.split s.primes 2 = (1 :: List.replicate (s.primes.length - 1) 0, 1) := by
  obtain ⟨primes, htable, -⟩ := Prime.table_eq_cons
  obtain ⟨n, hn⟩ : ∃ n, s.numberOfComponents = n + 1 := ⟨_, (Nat.sub_add_cancel h).symm⟩
  have hprimes : s.primes = 2 :: (3 :: primes).take n := by
    rw [Settings.primes, htable, hn, List.take_succ_cons]
  refine Prime.split_eq_of_eq_mul s.distinct_primes ?_ one_ne_zero (.one _) ?_
  · rw [hprimes, List.length_cons, List.length_cons, List.length_replicate]
    rfl
  · rw [hprimes, Prime.powerProduct,
      Prime.powerProduct_eq_one fun e he => List.eq_of_mem_replicate he]
    norm_num

theorem of_octave (h : IsEquave s 2 ns) :
    ns = 1 :: List.replicate (s.numberOfComponents - 1) 0 := by
  have hpos : 1 ≤ s.numberOfComponents := by
    by_contra h0
    have hnil : ns = [] := by
      rw [← List.length_eq_zero_iff, h.length]
      omega
    have h2 := h.eq_powerProduct
    rw [hnil, Prime.powerProduct_eq_one (by simp)] at h2
    norm_num at h2
  have hsplit := split_two hpos
  rw [Prime.split_eq_of_eq_mul s.distinct_primes (h.length.trans h.canonical.length_primes.symm)
    one_ne_zero (.one _) (by rw [one_mul, ← h.eq_powerProduct]), Prod.mk.injEq,
    h.canonical.length_primes] at hsplit
  exact hsplit.1

end IsEquave

namespace Literal

variable {s : Settings} {l l' a b : Literal} {es fs : List ℚ} {ns ks : List Int} {f g : ℚ}
  {m : Monzo}

/-- The exponents of the equave and the fraction of it that cents or steps denote. -/
inductive IsPart (s : Settings) : Literal → List Int → ℚ → Prop
  | cents {d : Digits} {q f : ℚ} {ns : List Int} (hd : d.toRatio = .ok q) (hf : f = q / 1200)
    (he : IsEquave s 2 ns) : IsPart s (cents d false) ns f
  | steps {w : Steps} {f : ℚ} {ns : List Int} (hf : w.fraction? = some f)
    (he : IsEquave s (w.equave?.getD 2) ns) : IsPart s (steps w) ns f

/-- A vector over the first primes without ups and lifts. -/
structure IsPlain (c : Components) : Prop where
  basis : c.basis = []
  ups : c.ups = 0
  lifts : c.lifts = 0

/-- The vector that a literal of a size denotes. -/
inductive Spans (s : Settings) : Literal → List ℚ → Prop
  | part {l : Literal} {ns : List Int} {f : ℚ} {es : List ℚ} (h : IsPart s l ns f)
    (hes : es = (wholes ns).map (· * f)) : Spans s l es
  | vector {c : Components} {es : List ℚ} (h : IsPlain c)
    (hes : es = padded s.numberOfComponents c.entries) : Spans s (monzo c) es

/-! ## Lowering -/

theorem IsPart.domain (h : IsPart s l ns f) : l.domain = .logarithmic := by cases h <;> rfl

theorem Spans.domain (h : Spans s l es) : l.domain = .logarithmic := by
  cases h with
  | part h => exact h.domain
  | vector => rfl

theorem Spans.isVal (h : Spans s l es) : l.isVal = false := by
  cases h with
  | part h => cases h <;> rfl
  | vector => rfl

theorem vectorOf_eq (s : Settings) (entries : List ℚ) :
    vectorOf s entries = checked s { exps := padded s.numberOfComponents entries } := rfl

theorem withArrows_zero {c : Context} {v : Value} : withArrows s c 0 0 v = .ok v := by
  unfold withArrows
  rfl

/-- The value of a literal of a size is the vector that it denotes. -/
theorem Spans.lowerValue_eq (h : Spans s l es) (c : Context) :
    lowerValue s c l = Memoized.ofExcept ((checked s { exps := es }).map .exact) := by
  cases h with
  | @part l ns f es h hes =>
    subst hes
    cases h with
    | @cents d q f ns hd hf he =>
      subst hf
      show Memoized.ofExcept ((lowerCents s d false).map _) = _
      unfold lowerCents
      rw [hd]
      show Memoized.ofExcept ((Monzo.ofTemperament s _ (q / 1200) 2).map _) = _
      rw [he.ofTemperament]
    | @steps w f ns hf he =>
      show Memoized.ofExcept ((lowerSteps s _ w).map _) = _
      unfold lowerSteps
      rw [hf]
      simp only
      rw [if_neg (not_le.mpr he.pos), he.ofTemperament]
  | @vector c' es h hes =>
    subst hes
    obtain ⟨entries, basis, ups, lifts⟩ := c'
    obtain ⟨rfl, rfl, rfl⟩ := h
    show Memoized.ofExcept ((vectorOf s entries).map Value.exact >>= _) = _
    rw [vectorOf_eq]
    cases checked s { exps := padded s.numberOfComponents entries } <;> rfl

/-- A literal lowers to the vector that it spans, in any context. -/
theorem Spans.lowers (h : Spans s l es) (hm : IsVector s m es) (context : Option Context)
    (memo : CommaMemo) : ∃ w, (lower s context l).Returns memo
      (.interval { value := .exact w, domain := .logarithmic, literal := some l }) memo ∧
      IsVector s w es := by
  obtain ⟨c, hc⟩ := Context.exists_given (one_le_absurdExponent hm.bounded) context
  obtain ⟨hchecked, hw⟩ := hm.checked_eq
  refine ⟨_, (lower_returns_iff h.isVal).mpr ⟨c, _, hc, ?_, by rw [h.domain]⟩, hw⟩
  rw [h.lowerValue_eq, hchecked]
  exact Memoized.returns_ofExcept.mpr ⟨rfl, rfl⟩

/-! ## One operand -/

theorem IsPart.neg (h : IsPart s l ns f) (hl : l.neg = some l') : IsPart s l' ns (-f) := by
  cases h with
  | cents hd hf he =>
    cases hl
    refine .cents (Digits.toRatio_flip hd) ?_ he
    rw [hf, neg_div]
  | @steps w f ns hf he =>
    cases hl
    refine .steps ?_ he
    unfold Steps.fraction? at hf ⊢
    split at hf
    · cases hf
    · next h0 =>
      cases hf
      rw [if_neg h0]
      simp [neg_div]

theorem IsPart.scale (h : IsPart s l ns f) {k : Int} (hl : l.scale k = .ok (some l')) :
    IsPart s l' ns (f * k) := by
  cases h with
  | cents hd hf he =>
    obtain ⟨q, hq, hl⟩ := bind_eq_ok.mp hl
    rw [hd] at hq
    cases hq
    obtain ⟨d', rfl, hd'⟩ := exists_of_ofCents? (Except.ok.inj hl)
    refine .cents hd' ?_ he
    rw [hf]
    ring
  | @steps w f ns hf he =>
    cases hl
    refine .steps ?_ he
    unfold Steps.fraction? at hf ⊢
    split at hf
    · cases hf
    · next h0 =>
      cases hf
      rw [if_neg h0]
      push_cast
      rw [mul_div_right_comm]

/-- Only steps are divided by an integer. -/
theorem IsPart.divide (h : IsPart s l ns f) {k : Int} (hl : l.div (integer k) = .ok (some l')) :
    IsPart s l' ns (f / k) := by
  cases h with
  | cents hd hf he =>
    obtain ⟨q, hq, hl⟩ := bind_eq_ok.mp hl
    cases hl
  | @steps w f ns hf he =>
    replace hl : (if k = 0 then none else some (Literal.steps _)) = some l' := Except.ok.inj hl
    split at hl
    · cases hl
    · next hk =>
      cases hl
      refine .steps ?_ he
      unfold Steps.fraction? at hf ⊢
      split at hf
      · cases hf
      · next h0 =>
        cases hf
        rw [not_or] at h0
        have habs : (k.natAbs : Int) ≠ 0 := by exact_mod_cast Int.natAbs_ne_zero.mpr hk
        have hd : w.denominator * k.natAbs ≠ 0 := mul_ne_zero h0.1 habs
        show (if w.denominator * k.natAbs = 0 ∨ w.equaveDenominator = some 0 then none
          else some (((k.sign * w.numerator : Int) : ℚ) / ((w.denominator * k.natAbs : Int) : ℚ))) =
            _
        rw [if_neg (not_or.mpr ⟨hd, h0.2⟩)]
        congr 1
        have hk' : (k : ℚ) ≠ 0 := by exact_mod_cast hk
        have hd' : (w.denominator : ℚ) ≠ 0 := by exact_mod_cast h0.1
        -- the sign of the divisor moves to the numerator
        rcases lt_or_gt_of_ne hk with hneg | hpos
        · rw [Int.sign_eq_neg_one_of_neg hneg, Int.ofNat_natAbs_of_nonpos hneg.le]
          push_cast
          field_simp
        · rw [Int.sign_eq_one_of_pos hpos, Int.natAbs_of_nonneg hpos.le]
          push_cast
          field_simp

end Literal

end Intonation
