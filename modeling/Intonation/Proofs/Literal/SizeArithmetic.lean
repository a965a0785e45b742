import Intonation.Proofs.Literal.Sizes
import Intonation.Proofs.Monzo.Equave

/-!
# Arithmetic on literals of sizes

Steps are combined over a common denominator and cents as ratios, which combines the fractions of
the equave. Vectors are combined entry by entry. When two literals of one kind have no such
combination, their result is spelled from the vector of its value.

## Main definitions

* `Literal.CombinesParts`: an operation on literals that combines fractions of an equave
* `Literal.CombinesSpans`: an operation on literals that combines vectors entry by entry

## Main statements

* `combineSteps_spec`: steps over a common denominator
* `IsSum.combinesParts`, `IsSum.combinesSpans`: sums and differences of fractions and of vectors
* `combinesParts_modulo`, `combinesParts_lensAdd`, `combinesParts_lensSub`: other operations on
  fractions of an equave
* `Spans.neg`, `Spans.scale`, `Spans.divide`, `Spans.combined`: operations on sizes
-/

namespace Intonation
open Double

namespace Literal

variable {s : Settings} {l a b : Literal} {es fs : List ℚ} {ns ks : List Int} {f g : ℚ}

/-! ## Fractions of an equave -/

/-- A numerator over a common multiple of denominators. -/
theorem numerator_over {n d : Int} {L : Int} (hd : d ≠ 0) (hL : d ∣ L) :
    ((n * (L / d) : Int) : ℚ) = (n : ℚ) / d * L := by
  obtain ⟨k, rfl⟩ := hL
  have hd' : (d : ℚ) ≠ 0 := by exact_mod_cast hd
  rw [Int.mul_ediv_cancel_left k hd]
  push_cast
  field_simp

theorem fraction?_eq_some {w : Steps} (h : w.fraction? = some f) :
    w.denominator ≠ 0 ∧ w.equaveDenominator ≠ some 0 ∧ (w.numerator : ℚ) / w.denominator = f := by
  unfold Steps.fraction? at h
  split at h
  · cases h
  · next h0 =>
    rw [not_or] at h0
    exact ⟨h0.1, h0.2, Option.some.inj h⟩

theorem fraction?_withFraction {w : Steps} (h : w.fraction? = some f) {n d : Int} (hd : d ≠ 0) :
    (w.withFraction n d).fraction? = some ((n : ℚ) / d) := by
  obtain ⟨-, hequave, -⟩ := fraction?_eq_some h
  unfold Steps.fraction?
  exact if_neg (not_or.mpr ⟨hd, hequave⟩)

/-- Steps of one equave are combined by their numerators over a common denominator. -/
theorem combineSteps_spec {op : Int → Int → Int} {v w : Steps}
    (h : combineSteps op v w = some l) : v.equave? = w.equave? ∧
      ∃ (x y : ℚ) (m n L : Int), v.fraction? = some x ∧ w.fraction? = some y ∧ L ≠ 0 ∧
        (m : ℚ) = x * L ∧ (n : ℚ) = y * L ∧ l = steps (v.withFraction (op m n) L) := by
  unfold combineSteps at h
  split at h
  · cases h
  · next h0 =>
    rw [not_or, not_or, not_not] at h0
    obtain ⟨hequave, hx, hy⟩ := h0
    obtain ⟨x, hx⟩ := Option.ne_none_iff_exists'.mp hx
    obtain ⟨y, hy⟩ := Option.ne_none_iff_exists'.mp hy
    obtain ⟨hd, -, hxq⟩ := fraction?_eq_some hx
    obtain ⟨he, -, hyq⟩ := fraction?_eq_some hy
    cases h
    refine ⟨hequave, x, y, _, _, _, hx, hy, ?_, ?_, ?_, rfl⟩
    · exact_mod_cast Nat.pos_iff_ne_zero.mp (Int.lcm_pos hd he)
    · rw [numerator_over hd (Int.dvd_lcm_left _ _), hxq]
    · rw [numerator_over he (Int.dvd_lcm_right _ _), hyq]

/-- An operation on literals that combines fractions of an equave. -/
structure CombinesParts (s : Settings)
    (onLiterals : Literal → Literal → Except Fault (Option Literal)) (op : ℚ → ℚ → Option ℚ) :
    Prop where
  of_parts : ∀ {a b l : Literal} {ns ks : List Int} {f g : ℚ}, IsPart s a ns f → IsPart s b ks g →
    onLiterals a b = .ok (some l) → ns = ks ∧ ∃ z, op f g = some z ∧ IsPart s l ns z

/-- Literals of sizes are combined when steps and cents are. -/
theorem combinesParts_of {onLiterals : Literal → Literal → Except Fault (Option Literal)}
    {op : ℚ → ℚ → Option ℚ}
    (hsteps : ∀ {v w : Steps} {l x y ns}, v.fraction? = some x → w.fraction? = some y →
      IsPart s (steps v) ns x → onLiterals (steps v) (steps w) = .ok (some l) →
      v.equave? = w.equave? ∧ ∃ z, op x y = some z ∧ (IsPart s (steps w) ns y → IsPart s l ns z))
    (hcents : ∀ {d e : Digits} {l p q ns}, d.toRatio = .ok p → e.toRatio = .ok q →
      IsEquave s 2 ns → onLiterals (cents d false) (cents e false) = .ok (some l) →
      ∃ z, op (p / 1200) (q / 1200) = some z ∧ IsPart s l ns z)
    (hmixed : ∀ {w : Steps} {d : Digits} {p}, d.toRatio = .ok p →
      onLiterals (steps w) (cents d false) = .ok none ∧
        onLiterals (cents d false) (steps w) = .ok none) : CombinesParts s onLiterals op := by
  constructor
  intro a b l ns ks f g ha hb hl
  cases ha with
  | cents hd hf he =>
    cases hb with
    | cents hd' hf' he' =>
      subst hf hf'
      obtain ⟨z, hz, h⟩ := hcents hd hd' he hl
      exact ⟨he.unique he', z, hz, h⟩
    | steps hg he' =>
      rw [(hmixed hd).2] at hl
      cases hl
  | steps hf he =>
    cases hb with
    | cents hd' hf' he' =>
      rw [(hmixed hd').1] at hl
      cases hl
    | steps hg he' =>
      obtain ⟨hequave, z, hz, h⟩ := hsteps hf hg (.steps hf he) hl
      have hns : ns = ks := he.unique (hequave ▸ he')
      subst hns
      exact ⟨rfl, z, hz, h (.steps hg he')⟩

/-- Combined steps denote the combined fraction when the operation scales. -/
theorem isPart_combineSteps {f : Int → Int → Int} {g : ℚ → ℚ → ℚ} {v w : Steps} {x y : ℚ}
    (hop : ∀ m n L : Int, L ≠ 0 → (m : ℚ) = x * L → (n : ℚ) = y * L →
      ((f m n : Int) : ℚ) = g x y * L)
    (hx : v.fraction? = some x) (hy : w.fraction? = some y) (hv : IsPart s (steps v) ns x)
    (h : combineSteps f v w = some l) : v.equave? = w.equave? ∧ IsPart s l ns (g x y) := by
  obtain ⟨hequave, x', y', m, n, L, hx', hy', hL, hm, hn, rfl⟩ := combineSteps_spec h
  rw [hx] at hx'
  rw [hy] at hy'
  cases hx'
  cases hy'
  refine ⟨hequave, ?_⟩
  cases hv with
  | steps _ he =>
    refine .steps ?_ he
    rw [fraction?_withFraction hx hL, hop m n L hL hm hn,
      mul_div_cancel_right₀ _ (by exact_mod_cast hL : (L : ℚ) ≠ 0)]

/-- Spelled cents denote a fraction of the octave. -/
theorem isPart_ofCents? {q : ℚ} (he : IsEquave s 2 ns) (h : ofCents? q = some l) :
    IsPart s l ns (q / 1200) := by
  obtain ⟨d, rfl, hd⟩ := exists_of_ofCents? h
  exact .cents hd rfl he

theorem centsRatio_cents {d : Digits} {p : ℚ} (hd : d.toRatio = .ok p) :
    centsRatio (cents d false) = .ok (some p) := by
  show d.toRatio.map some = _
  rw [hd]
  rfl

theorem centsRatio_steps (w : Steps) : centsRatio (steps w) = .ok none := rfl

theorem combineCents_eq {op : ℚ → ℚ → ℚ} {d e : Digits} {p q : ℚ} (hd : d.toRatio = .ok p)
    (he : e.toRatio = .ok q) :
    combineCents op d (cents e false) = .ok (ofCents? (op p q)) := by
  show d.toRatio >>= _ = _
  rw [hd]
  show centsRatio (cents e false) >>= _ = _
  rw [centsRatio_cents he]
  rfl

theorem combineCents_eq_none {op : ℚ → ℚ → ℚ} {d : Digits} {p : ℚ} (hd : d.toRatio = .ok p)
    (w : Steps) : combineCents op d (steps w) = .ok none := by
  show d.toRatio >>= _ = _
  rw [hd]
  rfl

/-- Sums and differences: numerators, cents and entries are added or subtracted, and literals of
different kinds have no common spelling. -/
structure IsSum (onLiterals : Literal → Literal → Except Fault (Option Literal)) (sign : Int)
    (onNumerators : Int → Int → Int) (op : ℚ → ℚ → ℚ) : Prop where
  numerators : ∀ m n, onNumerators m n = m + sign * n
  ratios : ∀ x y, op x y = x + sign * y
  steps : ∀ v w, onLiterals (steps v) (steps w) = .ok (combineSteps onNumerators v w)
  cents : ∀ d b, onLiterals (cents d false) b = combineCents op d b
  monzos : ∀ c d, onLiterals (monzo c) (monzo d) =
    .ok ((combineComponents sign c d).map monzo)
  steps_cents : ∀ w d, onLiterals (.steps w) (.cents d false) = .ok none
  steps_monzo : ∀ w c, onLiterals (.steps w) (monzo c) = .ok none
  monzo_steps : ∀ c w, onLiterals (monzo c) (.steps w) = .ok none
  monzo_cents : ∀ c d, onLiterals (monzo c) (.cents d false) = .ok none

theorem isSum_add : IsSum Literal.add 1 (· + ·) (· + ·) where
  numerators m n := by rw [one_mul]
  ratios x y := by rw [Int.cast_one, one_mul]
  steps _ _ := rfl
  cents _ _ := rfl
  monzos _ _ := rfl
  steps_cents _ _ := rfl
  steps_monzo _ _ := rfl
  monzo_steps _ _ := rfl
  monzo_cents _ _ := rfl

theorem isSum_sub : IsSum Literal.sub (-1) (· - ·) (· - ·) where
  numerators m n := by ring
  ratios x y := by
    push_cast
    ring
  steps _ _ := rfl
  cents _ _ := rfl
  monzos _ _ := rfl
  steps_cents _ _ := rfl
  steps_monzo _ _ := rfl
  monzo_steps _ _ := rfl
  monzo_cents _ _ := rfl

theorem IsSum.combinesParts {onLiterals : Literal → Literal → Except Fault (Option Literal)}
    {sign : Int} {onNumerators : Int → Int → Int} {op : ℚ → ℚ → ℚ}
    (h : IsSum onLiterals sign onNumerators op) (s : Settings) :
    CombinesParts s onLiterals (fun x y => some (op x y)) := by
  refine combinesParts_of (fun hx hy hv hl => ?_) (fun {d e l p q ns} hd he hns hl => ?_)
    (fun hd => ⟨h.steps_cents _ _, ?_⟩)
  · rw [h.steps] at hl
    obtain ⟨hequave, hpart⟩ := isPart_combineSteps (g := op)
      (fun m n L _ hm hn => by
        rw [h.numerators, h.ratios]
        push_cast
        rw [hm, hn]
        ring) hx hy hv (Except.ok.inj hl)
    exact ⟨hequave, _, rfl, fun _ => hpart⟩
  · rw [h.cents, combineCents_eq hd he] at hl
    have hscaled : op (p / 1200) (q / 1200) = op p q / 1200 := by
      rw [h.ratios, h.ratios]
      ring
    exact ⟨_, rfl, hscaled ▸ isPart_ofCents? hns (Except.ok.inj hl)⟩
  · rw [h.cents]
    exact combineCents_eq_none hd _

theorem combinesParts_modulo (s : Settings) (ceiling : Bool) :
    CombinesParts s (Literal.modulo s ceiling) (fun x y => some (Ratio.modulo x y ceiling)) := by
  refine combinesParts_of (fun {v w l x y ns} hx hy hv hl => ?_)
    (fun {d e l p q ns} hd he hns hl => ?_) (fun {w d p} hd => ⟨?_, ?_⟩)
  · replace hl : moduloSteps ceiling v w = some l := Except.ok.inj hl
    unfold moduloSteps at hl
    split at hl
    · cases hl
    · next h0 =>
      have hy0 : y ≠ 0 := fun h => h0 (h ▸ hy)
      obtain ⟨hequave, h⟩ := isPart_combineSteps (g := fun x y => Ratio.modulo x y ceiling)
        (fun m n L hL hm hn => by
          have hL' : (L : ℚ) ≠ 0 := by exact_mod_cast hL
          have hn0 : n ≠ 0 := by
            have : (n : ℚ) ≠ 0 := hn ▸ mul_ne_zero hy0 hL'
            exact_mod_cast this
          rw [Ratio.intModulo_eq m hn0, hm, hn, Ratio.modulo_mul hL']) hx hy hv hl
      exact ⟨hequave, _, rfl, fun _ => h⟩
  · change centsRatio (cents d false) >>= _ = _ at hl
    rw [centsRatio_cents hd] at hl
    change centsRatio (cents e false) >>= _ = _ at hl
    rw [centsRatio_cents he] at hl
    replace hl : (if q = 0 then none else ofCents? (Ratio.modulo p q ceiling)) = some l :=
      Except.ok.inj hl
    split at hl
    · cases hl
    · refine ⟨_, rfl, ?_⟩
      rw [div_eq_mul_inv, div_eq_mul_inv, Ratio.modulo_mul (by norm_num), ← div_eq_mul_inv]
      exact isPart_ofCents? hns hl
  · show centsRatio (steps w) >>= _ = _
    rw [centsRatio_steps]
    show centsRatio (cents d false) >>= _ = _
    rw [centsRatio_cents hd]
    rfl
  · show centsRatio (cents d false) >>= _ = _
    rw [centsRatio_cents hd]
    rfl

/-- Steps are combined harmonically as their fractions are. -/
theorem isPart_lensSteps {op : ℚ → ℚ → ℚ} {v w : Steps} {x y : ℚ} (hx : v.fraction? = some x)
    (hy : w.fraction? = some y) (hv : IsPart s (steps v) ns x)
    (h : lensSizes op (steps v) (steps w) = .ok (some l)) :
    v.equave? = w.equave? ∧
      ∃ z, lensFactor op x y = some z ∧ (IsPart s (steps w) ns y → IsPart s l ns z) := by
  unfold lensSizes at h
  replace h := Except.ok.inj h
  split at h
  · cases h
  · next hequave =>
    refine ⟨not_not.mp hequave, ?_⟩
    rw [hx, hy] at h
    simp only at h
    unfold lensFactor
    split at h
    · next hx0 =>
      cases h
      exact ⟨x, if_pos hx0, fun _ => hv⟩
    · next hx0 =>
      rw [if_neg hx0]
      split at h
      · next hy0 =>
        cases h
        exact ⟨y, if_pos hy0, id⟩
      · next hy0 =>
        rw [if_neg hy0]
        obtain ⟨z, hz, rfl⟩ := Option.map_eq_some_iff.mp h
        refine ⟨z, hz, fun _ => ?_⟩
        cases hv with
        | steps _ heq =>
          refine .steps ?_ heq
          have hden : ((z.den : Nat) : Int) ≠ 0 := by exact_mod_cast z.den_ne_zero
          rw [fraction?_withFraction hx hden, Int.cast_natCast, Rat.num_div_den]

/-- Cents are combined harmonically as their fractions of the octave are. -/
theorem isPart_lensCents {op : ℚ → ℚ → ℚ} (hop : ∀ x y z, op (x * z) (y * z) = op x y * z)
    {d e : Digits} {p q : ℚ} (hd : d.toRatio = .ok p) (he : e.toRatio = .ok q)
    (hns : IsEquave s 2 ns) (h : lensSizes op (cents d false) (cents e false) = .ok (some l)) :
    ∃ z, lensFactor op (p / 1200) (q / 1200) = some z ∧ IsPart s l ns z := by
  change centsRatio (cents d false) >>= _ = _ at h
  rw [centsRatio_cents hd] at h
  change centsRatio (cents e false) >>= _ = _ at h
  rw [centsRatio_cents he] at h
  replace h : (if p = 0 then some (cents d false) else if q = 0 then some (cents e false)
    else (harmonic op p q).bind ofCents?) = some l := Except.ok.inj h
  have h1200 : ∀ x : ℚ, x / 1200 = 0 ↔ x = 0 := fun x => by simp
  unfold lensFactor
  simp only [h1200]
  split at h
  · next hp0 =>
    cases h
    exact ⟨_, if_pos hp0, .cents hd rfl hns⟩
  · next hp0 =>
    rw [if_neg hp0]
    split at h
    · next hq0 =>
      cases h
      exact ⟨_, if_pos hq0, .cents he rfl hns⟩
    · next hq0 =>
      rw [if_neg hq0]
      obtain ⟨z, hz, h⟩ := Option.bind_eq_some_iff.mp h
      refine ⟨z / 1200, ?_, isPart_ofCents? hns h⟩
      rw [div_eq_mul_inv, div_eq_mul_inv, Ratio.harmonic_mul hop (by norm_num), hz,
        Option.map_some, ← div_eq_mul_inv]

/-- Harmonic combinations of sizes are those of the fractions. -/
theorem combinesParts_lensSizes (s : Settings) {op : ℚ → ℚ → ℚ}
    (hop : ∀ x y z, op (x * z) (y * z) = op x y * z) :
    CombinesParts s (lensSizes op) (lensFactor op) := by
  refine combinesParts_of isPart_lensSteps (isPart_lensCents hop) fun {w d p} hd => ⟨?_, ?_⟩
  · show centsRatio (steps w) >>= _ = _
    rw [centsRatio_steps]
    show centsRatio (cents d false) >>= _ = _
    rw [centsRatio_cents hd]
    rfl
  · show centsRatio (cents d false) >>= _ = _
    rw [centsRatio_cents hd]
    rfl

theorem IsPart.exactRatio?_eq_none (h : IsPart s l ns f) : l.exactRatio? = none := by
  cases h <;> rfl

theorem combinesParts_lensAdd (s : Settings) :
    CombinesParts s (Literal.lensAdd s) (lensFactor (· + ·)) := by
  constructor
  intro a b l ns ks f g ha hb hl
  unfold Literal.lensAdd at hl
  rw [ha.exactRatio?_eq_none] at hl
  exact (combinesParts_lensSizes s fun x y z => (add_mul x y z).symm).of_parts ha hb hl

theorem combinesParts_lensSub (s : Settings) :
    CombinesParts s (Literal.lensSub s) (lensFactor (· - ·)) := by
  constructor
  intro a b l ns ks f g ha hb hl
  unfold Literal.lensSub at hl
  rw [ha.exactRatio?_eq_none] at hl
  exact (combinesParts_lensSizes s fun x y z => (sub_mul x y z).symm).of_parts ha hb hl

/-- An operation that measures one size by another, which vectors have not. -/
structure MeasuresSizes (s : Settings)
    (onLiterals : Literal → Literal → Except Fault (Option Literal)) (op : ℚ → ℚ → Option ℚ) :
    Prop extends CombinesParts s onLiterals op where
  vectors : ∀ {a : Literal} {es : List ℚ} (c : Components), Spans s a es →
    onLiterals a (monzo c) = .ok none ∧ onLiterals (monzo c) a = .ok none

theorem MeasuresSizes.of_spans {onLiterals : Literal → Literal → Except Fault (Option Literal)}
    {op : ℚ → ℚ → Option ℚ} (hop : MeasuresSizes s onLiterals op) (ha : Spans s a es)
    (hb : Spans s b fs) (hl : onLiterals a b = .ok (some l)) :
    ∃ (ns : List Int) (x y z : ℚ), es = (Monzo.wholes ns).map (· * x) ∧
      fs = (Monzo.wholes ns).map (· * y) ∧ op x y = some z ∧
      Spans s l ((Monzo.wholes ns).map (· * z)) := by
  cases hb with
  | vector h hfs =>
    rw [(hop.vectors _ ha).1] at hl
    cases hl
  | part hb hfs =>
    cases ha with
    | vector h hes =>
      rw [(hop.vectors _ (.part hb hfs)).2] at hl
      cases hl
    | part ha hes =>
      obtain ⟨rfl, z, hz, h⟩ := hop.of_parts ha hb hl
      exact ⟨_, _, _, z, hes, hfs, hz, .part h rfl⟩

/-- The size in cents that a literal of a size denotes, if it is one of cents. -/
theorem Spans.centsRatio_eq (h : Spans s a es) : ∃ x, centsRatio a = .ok x := by
  cases h with
  | vector => exact ⟨none, rfl⟩
  | part h =>
    cases h with
    | steps => exact ⟨none, rfl⟩
    | cents hd => exact ⟨some _, map_eq_ok.mpr ⟨_, hd, rfl⟩⟩

theorem Spans.exactRatio?_eq_none (h : Spans s a es) : a.exactRatio? = none := by
  cases h with
  | vector => rfl
  | part h => exact h.exactRatio?_eq_none

theorem measuresSizes_modulo (s : Settings) (ceiling : Bool) :
    MeasuresSizes s (Literal.modulo s ceiling) (fun x y => some (Ratio.modulo x y ceiling)) where
  toCombinesParts := combinesParts_modulo s ceiling
  vectors {a es} c ha := by
    obtain ⟨x, hx⟩ := ha.centsRatio_eq
    have hnone : ∀ b, throughValues s (fun m n => m.modulo s n ceiling) a b = none := by
      intro b
      unfold throughValues
      rw [ha.exactRatio?_eq_none]
    constructor
    · rcases ha with ⟨_ | _, -⟩ | _
      all_goals
        show centsRatio _ >>= _ = _
        rw [hx]
        cases x <;> exact congrArg Except.ok (hnone _)
    · rcases ha with ⟨_ | _, -⟩ | _
      all_goals
        show centsRatio _ >>= _ = _
        rw [hx]
        rfl

theorem lensSizes_monzo {op : ℚ → ℚ → ℚ} (c : Components) (ha : Spans s a es) :
    lensSizes op a (monzo c) = .ok none ∧ lensSizes op (monzo c) a = .ok none := by
  obtain ⟨x, hx⟩ := ha.centsRatio_eq
  constructor
  · rcases ha with ⟨_ | _, -⟩ | _
    all_goals
      show centsRatio _ >>= _ = _
      rw [hx]
      cases x <;> rfl
  · rcases ha with ⟨_ | _, -⟩ | _
    all_goals
      show centsRatio _ >>= _ = _
      rw [hx]
      rfl

theorem measuresSizes_lensAdd (s : Settings) :
    MeasuresSizes s (Literal.lensAdd s) (lensFactor (· + ·)) where
  toCombinesParts := combinesParts_lensAdd s
  vectors {a es} c ha := by
    refine ⟨?_, (lensSizes_monzo c ha).2⟩
    unfold Literal.lensAdd
    rw [ha.exactRatio?_eq_none]
    exact (lensSizes_monzo c ha).1

theorem measuresSizes_lensSub (s : Settings) :
    MeasuresSizes s (Literal.lensSub s) (lensFactor (· - ·)) where
  toCombinesParts := combinesParts_lensSub s
  vectors {a es} c ha := by
    refine ⟨?_, (lensSizes_monzo c ha).2⟩
    unfold Literal.lensSub
    rw [ha.exactRatio?_eq_none]
    exact (lensSizes_monzo c ha).1

/-! ## Spelling a vector -/

/-- A vector that is a power of an equave, or of nothing, is a multiple of its exponents. -/
theorem eq_map_of_temperament {equave : ℚ} (he : IsEquave s equave ns)
    (hlen : es.length = s.numberOfComponents)
    (h : (Monzo.temperament es).2 = 1 ∨ (Monzo.temperament es).2 = equave) :
    es = (Monzo.wholes ns).map (· * (Monzo.temperament es).1) := by
  rcases h with hone | hequave
  · have hflat := Monzo.isFlat_of_temperament (hlen.trans_le he.canonical.tracked) hone
    have hmap : (Monzo.wholes ns).map (· * (0 : ℚ)) = List.replicate es.length 0 := by
      simp only [mul_zero, List.map_const']
      rw [Monzo.length_wholes, he.length, hlen]
    rw [Monzo.temperament_of_flat hflat, hmap]
    exact Monzo.isFlat_iff.mp hflat
  · obtain ⟨ks, hks, hproduct, hmul, -⟩ := Monzo.temperament_spec es
    have hklen : ks.length = s.numberOfComponents := hks.trans hlen
    rw [← Prime.powerProduct_take _ _ hklen.le] at hproduct
    rw [he.eq_of_powerProduct hklen (hequave.symm.trans hproduct)] at hmul
    rw [Monzo.wholes, List.map_map]
    exact hmul

/-- A fraction as plain steps. -/
theorem fraction?_of_rat (q : ℚ) :
    ({ numerator := q.num, denominator := q.den } : Steps).fraction? = some q := by
  have hden : (q.den : Int) ≠ 0 := by exact_mod_cast q.den_ne_zero
  rw [Steps.fraction?, if_neg (not_or.mpr ⟨hden, nofun⟩), Int.cast_natCast, Rat.num_div_den]

/-- Steps in the division of written ones are steps of the same equave. -/
theorem exists_of_stepsLike {w : Steps} {part equave : ℚ} (hf : w.fraction? = some f)
    (hpos : 0 < w.equave?.getD 2) (hl : stepsLike w part equave = some l) :
    (equave = 1 ∨ equave = w.equave?.getD 2) ∧
      ∃ v, l = steps v ∧ v.equave? = w.equave? ∧ v.fraction? = some part := by
  obtain ⟨hd, hd', -⟩ := fraction?_eq_some hf
  have hpart : ((part.den : Nat) : Int) ≠ 0 := by exact_mod_cast part.den_ne_zero
  have hpartq : (part.num : ℚ) / ((part.den : Nat) : Int) = part := by
    rw [Int.cast_natCast, Rat.num_div_den]
  have hwritten : stepsLike w part equave =
      if equave ≠ 1 ∧ equave ≠ w.equave?.getD 2 then none
      else if w.denominator ≠ 0 ∧ w.denominator.natAbs % part.den = 0 then
        some (steps { w with numerator := part.num * (w.denominator / part.den) })
      else some (steps (w.withFraction part.num part.den)) := by
    unfold stepsLike
    rcases hequave : w.equave? with - | e
    · rfl
    · rw [hequave] at hpos
      simp only [if_neg (show e ≠ 0 from hpos.ne'), Option.getD_some]
  rw [hwritten] at hl
  split at hl
  · cases hl
  · next hequave =>
    rw [not_and_or, not_not, not_not] at hequave
    refine ⟨hequave, ?_⟩
    -- the division at hand is kept when the part is a whole number of its steps
    split at hl
    · next hfine =>
      cases hl
      have hdvd : ((part.den : Nat) : Int) ∣ w.denominator :=
        Int.natCast_dvd.mpr (Nat.dvd_of_mod_eq_zero hfine.2)
      refine ⟨_, rfl, rfl, ?_⟩
      unfold Steps.fraction?
      rw [if_neg (not_or.mpr ⟨hd, hd'⟩)]
      show some (((part.num * (w.denominator / part.den) : Int) : ℚ) / w.denominator) = _
      rw [numerator_over hpart hdvd, hpartq,
        mul_div_cancel_right₀ _ (by exact_mod_cast hd : (w.denominator : ℚ) ≠ 0)]
    · cases hl
      exact ⟨_, rfl, rfl, by rw [fraction?_withFraction hf hpart, hpartq]⟩

/-- A value as steps is its fraction of the equave of the reference, if it is any. -/
theorem exists_of_asSteps {w : Steps} {r : Monzo} {simplify : Bool} (hf : w.fraction? = some f)
    (hpos : 0 < w.equave?.getD 2) (hl : respell (.exact r) (steps w) simplify = some l) :
    r.isEqualTemperament ∧
      ((Monzo.temperament r.exps).2 = 1 ∨ (Monzo.temperament r.exps).2 = w.equave?.getD 2) ∧
      ∃ v, l = steps v ∧ v.equave? = w.equave? ∧
        v.fraction? = some (Monzo.temperament r.exps).1 := by
  replace hl : asSteps (.exact r) (if simplify && w.equave?.isNone then none else some w) =
    some l := hl
  unfold asSteps at hl
  simp only at hl
  split at hl
  · next htemp =>
    refine ⟨htemp, ?_⟩
    split at hl
    · next hplain =>
      split at hplain
      · next hnone =>
        have hequave : w.equave? = none := by
          rw [Bool.and_eq_true, Option.isNone_iff_eq_none] at hnone
          exact hnone.2
        unfold plainSteps at hl
        split at hl
        · next htwo =>
          cases hl
          exact ⟨hequave ▸ htwo, _, rfl, hequave.symm, fraction?_of_rat _⟩
        · cases hl
      · cases hplain
    · next written hwritten =>
      have hw : written = w := by
        split at hwritten
        · cases hwritten
        · exact (Option.some.inj hwritten).symm
      subst hw
      exact exists_of_stepsLike hf hpos hl
  · cases hl

/-- Steps of the octave or of a written equave spell a multiple of its exponents. -/
theorem spans_asSteps {w : Steps} {r : Monzo} (ha : IsPart s (steps w) ns f)
    (hr : Monzo.IsVector s r es) (hlen : es.length = s.numberOfComponents)
    (hl : respell (.exact r) (steps w) true = some l) : Spans s l es := by
  cases ha with
  | steps hf he =>
    obtain ⟨-, hequave, v, rfl, hv, hpart⟩ := exists_of_asSteps hf he.pos hl
    rw [hr.exps] at hequave hpart
    exact .part (.steps hpart (hv ▸ he)) (eq_map_of_temperament he hlen hequave)

/-- Cents spell a multiple of the octave. -/
theorem spans_asCents {r : Monzo} {x : ℚ} (he : IsEquave s 2 ns)
    (hr : Monzo.IsVector s r ((Monzo.wholes ns).map (· * x)))
    (hl : asCents (.exact r) = some l) : Spans s l ((Monzo.wholes ns).map (· * x)) := by
  unfold asCents at hl
  simp only at hl
  split at hl
  · have hfirst : r.firstExponent = x := by
      rw [Monzo.firstExponent, hr.exps, he.of_octave, Monzo.wholes, List.map_cons, List.map_cons,
        List.headD_cons, Int.cast_one, one_mul]
    rw [hfirst] at hl
    have hpart := isPart_ofCents? he hl
    rw [mul_div_cancel_right₀ _ (by norm_num : (1200 : ℚ) ≠ 0)] at hpart
    exact .part hpart rfl
  · cases hl

/-! ## Reversing and scaling -/

theorem Spans.neg (h : Spans s a es) (hl : a.neg = some l) : Spans s l (es.map fun e => -e) := by
  cases h with
  | part h hes =>
    refine .part (h.neg hl) ?_
    rw [hes, List.map_map]
    exact List.map_congr_left fun e _ => (mul_neg e _).symm
  | vector h hes =>
    cases hl
    refine .vector ⟨h.basis, ?_, ?_⟩ ?_
    · simp [scaleComponents, h.ups]
    · simp [scaleComponents, h.lifts]
    · rw [hes, map_padded neg_zero]
      simp [scaleComponents]

theorem Spans.scale (h : Spans s a es) {k : Int} (hl : a.scale k = .ok (some l)) :
    Spans s l (es.map (· * (k : ℚ))) := by
  cases h with
  | part h hes =>
    refine .part (h.scale hl) ?_
    rw [hes, List.map_map]
    exact List.map_congr_left fun e _ => mul_assoc e _ _
  | vector h hes =>
    cases hl
    refine .vector ⟨h.basis, ?_, ?_⟩ ?_
    · simp [scaleComponents, h.ups]
    · simp [scaleComponents, h.lifts]
    · rw [hes, map_padded (f := (· * (k : ℚ))) (zero_mul _)]
      rfl

theorem Spans.divide (h : Spans s a es) {k : Int} (hl : a.div (integer k) = .ok (some l)) :
    Spans s l (es.map (· * (k : ℚ)⁻¹)) := by
  cases h with
  | part h hes =>
    refine .part (h.divide hl) ?_
    rw [hes, List.map_map]
    exact List.map_congr_left fun e _ => by
      rw [Function.comp_apply, div_eq_mul_inv, mul_assoc]
  | vector h hes => cases hl

/-! ## Sums and differences -/

/-- An operation on literals of sizes that combines their vectors entry by entry. -/
structure CombinesSpans (s : Settings)
    (onLiterals : Literal → Literal → Except Fault (Option Literal)) (op : ℚ → ℚ → ℚ) :
    Prop where
  scales : ∀ x y z, op (z * x) (z * y) = z * op x y
  parts : CombinesParts s onLiterals fun x y => some (op x y)
  vectors : ∀ {c d : Components}, IsPlain c → IsPlain d → ∃ e : Components, IsPlain e ∧
    e.entries = zipEntries op c.entries d.entries ∧
    onLiterals (monzo c) (monzo d) = .ok (some (monzo e))
  mixed : ∀ {a : Literal} {ns : List Int} {f : ℚ} (c : Components), IsPart s a ns f →
    onLiterals a (monzo c) = .ok none ∧ onLiterals (monzo c) a = .ok none

/-- Without a common spelling, the value itself is spelled as the operands are. -/
theorem IsPart.spans_respelled {op : ℚ → ℚ → ℚ} (ha : IsPart s a ns f) (hb : IsPart s b ks g)
    (hop : ∀ x y z, op (z * x) (z * y) = z * op x y) {r : Monzo}
    (hr : Monzo.IsVector s r
      (zipEntries op ((Monzo.wholes ns).map (· * f)) ((Monzo.wholes ks).map (· * g))))
    (hl : orRespelled (.exact r) (some a) (some b) none = some l) :
    Spans s l (zipEntries op ((Monzo.wholes ns).map (· * f)) ((Monzo.wholes ks).map (· * g))) := by
  replace hl : (if a.sameKind b then respell (.exact r) a true else none) = some l := hl
  split at hl
  · next hkind =>
    cases ha with
    | cents hd hf he =>
      cases hb with
      | steps => cases hkind
      | cents hd' hf' he' =>
        have hns := he.unique he'
        subst hns
        rw [zipEntries_map_mul hop] at hr ⊢
        exact spans_asCents he hr hl
    | steps hf he =>
      cases hb with
      | cents => cases hkind
      | steps hg he' =>
        refine spans_asSteps (.steps hf he) hr ?_ hl
        rw [length_zipEntries, List.length_map, List.length_map, Monzo.length_wholes,
          Monzo.length_wholes, he.length, he'.length, max_self]
  · cases hl

theorem Spans.combined {onLiterals : Literal → Literal → Except Fault (Option Literal)}
    {op : ℚ → ℚ → ℚ} (hop : CombinesSpans s onLiterals op) {x : Option Literal} {r : Monzo}
    (ha : Spans s a es) (hb : Spans s b fs) (hr : Monzo.IsVector s r (zipEntries op es fs))
    (hx : onLiterals a b = .ok x)
    (hl : orRespelled (.exact r) (some a) (some b) x = some l) :
    Spans s l (zipEntries op es fs) := by
  cases ha with
  | @part a ns f es ha hes =>
    cases hb with
    | @part b ks g fs hb hfs =>
      cases x with
      | some l' =>
        cases hl
        obtain ⟨rfl, z, hz, h⟩ := hop.parts.of_parts ha hb hx
        cases hz
        rw [hes, hfs, zipEntries_map_mul hop.scales]
        exact .part h rfl
      | none =>
        rw [hes, hfs] at hr ⊢
        exact ha.spans_respelled hb hop.scales hr hl
    | vector h hfs =>
      rw [(hop.mixed _ ha).1] at hx
      cases hx
      cases ha <;> cases hl
  | vector h hes =>
    cases hb with
    | part hb hfs =>
      rw [(hop.mixed _ hb).2] at hx
      cases hx
      cases hb <;> cases hl
    | vector h' hfs =>
      obtain ⟨e, he, hentries, hmonzo⟩ := hop.vectors h h'
      rw [hmonzo] at hx
      cases hx
      cases hl
      refine .vector he ?_
      have h0 : op 0 0 = 0 := by simpa using hop.scales 0 0 0
      rw [hes, hfs, zipEntries_padded h0, hentries]

theorem combineComponents_plain (sign : Int) {c d : Components} (hc : IsPlain c)
    (hd : IsPlain d) : ∃ e : Components, IsPlain e ∧
      e.entries = zipEntries (fun x y => x + sign * y) c.entries d.entries ∧
      combineComponents sign c d = some e := by
  unfold combineComponents
  rw [if_neg (by rw [hc.basis, hd.basis]; simp)]
  refine ⟨{ c with
    entries := zipEntries (fun x y => x + sign * y) c.entries d.entries
    ups := c.ups + sign * d.ups
    lifts := c.lifts + sign * d.lifts }, ⟨hc.basis, ?_, ?_⟩, rfl, rfl⟩
  · show c.ups + sign * d.ups = 0
    rw [hc.ups, hd.ups, mul_zero, add_zero]
  · show c.lifts + sign * d.lifts = 0
    rw [hc.lifts, hd.lifts, mul_zero, add_zero]

theorem IsSum.combinesSpans {onLiterals : Literal → Literal → Except Fault (Option Literal)}
    {sign : Int} {onNumerators : Int → Int → Int} {op : ℚ → ℚ → ℚ}
    (h : IsSum onLiterals sign onNumerators op) (s : Settings) :
    CombinesSpans s onLiterals op where
  scales x y z := by
    rw [h.ratios, h.ratios]
    ring
  parts := h.combinesParts s
  vectors hc hd := by
    obtain ⟨e, he, hentries, hcombined⟩ := combineComponents_plain sign hc hd
    refine ⟨e, he, ?_, ?_⟩
    · rw [hentries, funext₂ h.ratios]
    · rw [h.monzos, hcombined]
      rfl
  mixed c ha := by
    cases ha with
    | steps => exact ⟨h.steps_monzo _ _, h.monzo_steps _ _⟩
    | cents hd hf =>
      subst hf
      refine ⟨?_, h.monzo_cents _ _⟩
      rw [h.cents]
      show Digits.toRatio _ >>= _ = _
      rw [hd]
      rfl

end Literal

end Intonation
