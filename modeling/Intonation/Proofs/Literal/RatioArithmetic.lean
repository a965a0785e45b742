import Intonation.Proofs.Literal.Ratios

/-!
# Arithmetic on literals of ratios

Sums, products and quotients of literals of ratios spell the values that arithmetic on values
gives. Operators that measure one ratio by another go through the values of the written
ratios, which are twins of the values at hand.

## Main statements

* `Spells.add`, `Spells.sub`, `Spells.mul`, `Spells.div`: arithmetic
* `Spells.throughValues`: operators that go through values
-/

namespace Intonation

namespace Monzo

variable {s : Settings} {a b : Monzo} {v : Value}

/-- What an operation on ratios gives for two values over the tracked primes: a ratio for two
ratios, and a real value otherwise. -/
structure Combines (s : Settings) (op : ℚ → ℚ → ℚ) (a b : Monzo) (v : Value) : Prop where
  time_eq : a.time = b.time
  exact : a.isFractional → b.isFractional → ∃ r : Monzo, v = .exact r ∧ r.Canonical s ∧
    r.ratio = op a.ratio b.ratio ∧ r.time = a.time
  real : ¬ (a.isFractional ∧ b.isFractional) → ∃ x, v = .real x

theorem ratioResult_spec {q : ℚ} (ha : a.components = s.numberOfComponents)
    (hb : b.components = s.numberOfComponents) (h : ratioResult s a b q = .ok v) :
    ∃ r : Monzo, v = .exact r ∧ r.Canonical s ∧ r.ratio = q ∧ r.time = a.time := by
  unfold ratioResult at h
  rw [ha, hb, max_self] at h
  obtain ⟨m, hm, hv⟩ := bind_eq_ok.mp h
  obtain ⟨hc, hq, -⟩ := canonical_ofRatio hm
  cases hv
  exact ⟨_, rfl, hc.withTime a.time, hq, rfl⟩

theorem requireUnits_eq_ok {operation : String} {x : Unit}
    (h : requireUnits operation a b = .ok x) : a.time = b.time := by
  unfold requireUnits at h
  split at h
  · assumption
  · cases h

/-- A run of an operation that is exact for two ratios. -/
theorem combines_of_run {f : ℚ → ℚ → ℚ} {operation : String} {real : Except Fault Approx}
    (ha : a.components = s.numberOfComponents) (hb : b.components = s.numberOfComponents)
    (h : (do
      requireUnits operation a b
      if a.isFractional && b.isFractional then ratioResult s a b (f a.ratio b.ratio)
      else real.map .real) = .ok v) : Combines s f a b v := by
  obtain ⟨x, hunits, h⟩ := bind_eq_ok.mp h
  have htime := requireUnits_eq_ok hunits
  split at h
  · next hfrac =>
    rw [Bool.and_eq_true] at hfrac
    exact ⟨htime, fun _ _ => ratioResult_spec ha hb h, fun hnot => absurd hfrac hnot⟩
  · next hfrac =>
    rw [Bool.and_eq_true] at hfrac
    obtain ⟨y, -, hy⟩ := map_eq_ok.mp h
    exact ⟨htime, fun hfa hfb => absurd ⟨hfa, hfb⟩ hfrac, fun _ => ⟨y, hy.symm⟩⟩

theorem add_combines (ha : a.components = s.numberOfComponents)
    (hb : b.components = s.numberOfComponents) (h : a.add s b = .ok v) :
    Combines s (· + ·) a b v := combines_of_run (f := (· + ·)) ha hb h

theorem sub_combines (ha : a.components = s.numberOfComponents)
    (hb : b.components = s.numberOfComponents) (h : a.sub s b = .ok v) :
    Combines s (· - ·) a b v := combines_of_run (f := (· - ·)) ha hb h

end Monzo

namespace Literal
open Double

variable {s : Settings} {l a b : Literal} {v w r : Value} {q t : ℚ}

/-! ## Sums -/

theorem components_of_spells {m : Monzo} (h : Spells s l (.exact m)) :
    m.components = s.numberOfComponents := by
  cases h with
  | ratio h hm => exact hm.components_length
  | radical hq hw hm =>
    obtain ⟨-, -, base, hbase, hexps⟩ := Monzo.ofTemperament_ok hw
    rw [Monzo.components, hm.exps, hexps, List.length_map]
    exact (Monzo.canonical_ofRatio hbase).1.components_length

/-- An operation on the numerators of fractions, and the same operation on ratios. -/
structure Additive (op : Int → Int → Int) (op' : ℚ → ℚ → ℚ) : Prop where
  cast : ∀ x y : Int, ((op x y : Int) : ℚ) = op' x y
  div : ∀ x y z : ℚ, op' x y / z = op' (x / z) (y / z)

/-- What sums and differences of literals of ratios have in common. -/
def combineRatios (op : Int → Int → Int) (op' : ℚ → ℚ → ℚ) :
    Literal → Literal → Except Fault (Option Literal)
  | integer m, integer n => .ok (some (integer (op m n)))
  | fraction m d, fraction n e => .ok (some (combineFractions op m d n e))
  | decimal d f, decimal e g => combineDecimals op' d e f g
  | _, _ => .ok none

theorem Denotes.combineFractions {op : Int → Int → Int} {op' : ℚ → ℚ → ℚ} (hop : Additive op op')
    {m d n e : Int} (hd : d ≠ 0) (he : e ≠ 0) :
    Denotes (Literal.combineFractions op m d n e) (op' ((m : ℚ) / d) ((n : ℚ) / e)) 0 := by
  have hd' : (d : ℚ) ≠ 0 := by exact_mod_cast hd
  have he' : (e : ℚ) ≠ 0 := by exact_mod_cast he
  unfold Literal.combineFractions
  split
  · next heq =>
    subst heq
    rw [← hop.div, ← hop.cast]
    exact .fraction hd
  · have h := Denotes.fraction (n := op (m * e) (n * d)) (mul_ne_zero hd he)
    rw [hop.cast, hop.div] at h
    push_cast at h
    rwa [mul_div_mul_right _ _ he', mul_comm (n : ℚ), mul_div_mul_left _ _ hd'] at h

/-- A sum of decimals takes the flavor of the first one. Decimals of two flavors have no common
spelling, and take that of the value. -/
theorem Spells.sum_decimals {op : ℚ → ℚ → ℚ} {d e : Digits} {f g : DecimalFlavor} {p q t : ℚ}
    {r : Monzo} {x : Option Literal} (hf : f ≠ .real) (hd : d.toRatio = .ok p)
    (he : e.toRatio = .ok q) (htf : t = flavorTime f) (hr : r.Canonical s)
    (hrq : r.ratio = op p q) (hrt : r.time = t) (hx : combineDecimals op d e f g = .ok x)
    (hl : orRespelled (.exact r) (some (decimal d f)) (some (decimal e g)) x = some l) :
    Spells s l (.exact r) := by
  have hspelled : ∀ {l}, ofDecimal? (op p q) f = some l → Spells s l (.exact r) := by
    intro l hl
    obtain ⟨-, d', rfl, hd'⟩ := exists_of_ofDecimal? hl
    exact .ratio (.decimal hf hd' htf) hr hrq hrt
  cases x with
  | some l' =>
    cases hl
    unfold combineDecimals at hx
    split at hx
    · cases hx
    · rw [hd, he] at hx
      exact hspelled (Except.ok.inj hx)
  | none =>
    replace hl : asDecimal (.exact r) f = some l := hl
    unfold asDecimal at hl
    simp only [hrq] at hl
    split at hl
    · exact hspelled hl
    · cases hl

/-- A sum of literals of ratios, spelled directly or through its value. -/
theorem Spells.sum {op : Int → Int → Int} {op' : ℚ → ℚ → ℚ} (hop : Additive op op')
    {x : Option Literal} {p q t : ℚ} {r : Monzo} (ha : Denotes a p t) (hb : Denotes b q t)
    (hr : r.Canonical s) (hrq : r.ratio = op' p q) (hrt : r.time = t)
    (hx : combineRatios op op' a b = .ok x)
    (hl : Literal.orRespelled (.exact r) (some a) (some b) x = some l) : Spells s l (.exact r) := by
  cases ha with
  | integer m =>
    cases hb with
    | integer n =>
      cases hx
      cases hl
      exact .ratio (.integer _) hr (hrq.trans (hop.cast m n).symm) hrt
    | fraction he =>
      cases hx
      cases hl
    | decimal hg he =>
      cases hx
      cases hl
  | fraction hd =>
    cases hb with
    | integer n =>
      cases hx
      cases hl
    | fraction he =>
      cases hx
      cases hl
      exact .ratio (.combineFractions hop hd he) hr hrq hrt
    | decimal hg he =>
      cases hx
      cases hl
  | @decimal d f p t hf hd htf =>
    cases hb with
    | integer n =>
      cases hx
      cases hl
    | fraction he =>
      cases hx
      cases hl
    | decimal hg he htg => exact Spells.sum_decimals hf hd he htf hr hrq hrt hx hl

/-- The equave of a canonical value is tracked as a vector of whole numbers. It is within the bounds
when the value is, as a whole power has larger exponents than its base. -/
theorem exists_ofRatioOver_equave {r : Monzo} (hr : r.Canonical s) (hres : r.residual = 1) :
    ∃ ns : List Int,
      (Monzo.wholes ns).map (· * (Monzo.temperament r.exps).1) = r.exps ∧
      Monzo.ofRatioOver s s.numberOfComponents (Monzo.temperament r.exps).2 =
        .ok { exps := Monzo.wholes ns, residual := 1 } := by
  obtain ⟨ks, hlen, hexps⟩ := hr.whole
  obtain ⟨ns, hnlen, hequave, hmul, hzero⟩ := Monzo.temperament_spec r.exps
  obtain ⟨k, hk⟩ := Monzo.temperament_wholes ks
  rw [← hexps] at hk
  have hnlen' : ns.length = s.numberOfComponents := by
    rw [hnlen, hexps, Monzo.length_wholes, hlen]
  have hscaled : (Monzo.wholes ns).map (· * (Monzo.temperament r.exps).1) = r.exps := by
    rw [Monzo.wholes, List.map_map]
    exact hmul.symm
  have hsplit : Prime.split s.primes (Monzo.temperament r.exps).2 = (ns, 1) := by
    refine Prime.split_eq_of_eq_mul s.distinct_primes (hnlen'.trans hr.length_primes.symm)
      one_ne_zero (.one _) ?_
    rw [hequave, one_mul, Settings.primes, Prime.powerProduct_take _ _ hnlen'.le]
  have hbounds := Monzo.boundsFault?_eq_none_iff.mp hr.bounded
  rw [Settings.primes] at hsplit
  refine ⟨ns, hscaled, Monzo.ofRatioOver_eq_ok_iff.mpr ⟨hr.tracked, ?_⟩⟩
  rw [hsplit]
  refine Monzo.checked_eq_ok_iff.mpr ⟨Monzo.bounded_of_uncorrected ?_ ?_ zero_beq_zero, rfl⟩
  · refine Monzo.exponentFault?_of_le (Monzo.centsBound_nonneg s)
      (fun _ => Prime.isFull_of_mem_measures) ?_ hbounds.1
    rw [← hscaled, List.forall₂_map_right_iff, List.forall₂_same]
    intro e he
    obtain ⟨n, hn, rfl⟩ := List.mem_map.mp he
    by_cases hk0 : k = 0
    · rw [hzero (by rw [hk, hk0, Int.cast_zero]) n hn]
      simp
    · rw [hk, abs_mul]
      refine le_mul_of_one_le_right (abs_nonneg _) ?_
      exact_mod_cast Int.one_le_abs hk0
  · exact hres ▸ hbounds.2.bits_le

/-- The radical that a value is written as spells it. -/
theorem spells_asRadical {r : Monzo} (hr : r.Canonical s) (hl : asRadical (.exact r) = some l) :
    Spells s l (.exact r) := by
  unfold asRadical at hl
  simp only at hl
  split at hl
  · next htemp =>
    cases hl
    simp only [Monzo.isEqualTemperament, Monzo.isScalar, Bool.and_eq_true,
      decide_eq_true_eq] at htemp
    obtain ⟨⟨htime, -⟩, hres⟩ := htemp
    obtain ⟨ns, hscaled, hequave⟩ := exists_ofRatioOver_equave hr hres
    have hcents := Double.Alike.of_beq_zero hr.uncorrected zero_beq_zero
    refine .radical (w := { exps := r.exps, residual := 1 }) (Monzo.temperament_pos _) ?_
      ⟨htime, rfl, hres, hcents⟩
    rw [Monzo.ofTemperament_of_pow hequave (Ratio.pow?_one _), hscaled]
    exact Monzo.checked_eq_ok_iff.mpr
      ⟨Monzo.bounded_congr (m := r) rfl hres hcents hr.bounded, rfl⟩
  · cases hl

/-- A literal of ratios or radicals spells a value over the tracked primes. -/
theorem Spells.exists_exact (h : Spells s l v) :
    ∃ m : Monzo, v = .exact m ∧ m.components = s.numberOfComponents := by
  cases h with
  | ratio h hm hq ht => exact ⟨_, rfl, hm.components_length⟩
  | radical hq hw hm => exact ⟨_, rfl, components_of_spells (.radical hq hw hm)⟩

theorem Spells.combined {op : Int → Int → Int} {op' : ℚ → ℚ → ℚ} (hop : Additive op op')
    {x : Option Literal} {m n : Monzo} (ha : Spells s a (.exact m)) (hb : Spells s b (.exact n))
    (hr : Monzo.Combines s op' m n r) (hx : combineRatios op op' a b = .ok x)
    (hl : Literal.orRespelled r (some a) (some b) x = some l) : Spells s l r := by
  cases ha with
  | @ratio _ p t _ hda hm hp ht =>
    cases hb with
    | @ratio _ q t' _ hdb hn hq ht' =>
      obtain ⟨y, rfl, hy, hyq, hyt⟩ := hr.exact hm.isFractional hn.isFractional
      have htt : t' = t := by rw [← ht, ← ht', hr.time_eq]
      subst htt
      exact .sum hop hda hdb hy (by rw [hyq, hp, hq]) (hyt.trans ht) hx hl
    | radical =>
      cases hda <;> cases hx <;> cases hl
  | radical hq hw hm =>
    cases hb with
    | ratio hdb => cases hdb <;> cases hx <;> cases hl
    | radical =>
      cases hx
      replace hl : asRadical r = some l := hl
      by_cases hfrac : m.isFractional ∧ n.isFractional
      · obtain ⟨y, rfl, hy, -, -⟩ := hr.exact hfrac.1 hfrac.2
        exact spells_asRadical hy hl
      · obtain ⟨y, rfl⟩ := hr.real hfrac
        cases hl

/-- Integers, fractions, decimals and radicals. -/
def isNumeric : Literal → Bool
  | integer _ | fraction .. | decimal .. | radical .. => true
  | _ => false

theorem Spells.isNumeric (h : Spells s l v) : l.isNumeric := by
  cases h with
  | ratio h => cases h <;> rfl
  | radical => rfl

theorem add_eq_combineRatios (ha : a.isNumeric) (hb : b.isNumeric) :
    Literal.add a b = combineRatios (· + ·) (· + ·) a b := by
  cases a <;> cases ha <;> cases b <;> cases hb <;> rfl

theorem sub_eq_combineRatios (ha : a.isNumeric) (hb : b.isNumeric) :
    Literal.sub a b = combineRatios (· - ·) (· - ·) a b := by
  cases a <;> cases ha <;> cases b <;> cases hb <;> rfl

theorem additive_add : Additive (· + ·) (· + ·) :=
  ⟨fun x y => by push_cast; rfl, fun x y z => add_div x y z⟩

theorem additive_sub : Additive (· - ·) (· - ·) :=
  ⟨fun x y => by push_cast; rfl, fun x y z => sub_div x y z⟩

theorem Spells.add {x : Option Literal} (ha : Spells s a v) (hb : Spells s b w)
    (hr : v.add s w = .ok r) (hx : Literal.add a b = .ok x)
    (hl : Literal.orRespelled r (some a) (some b) x = some l) : Spells s l r := by
  rw [add_eq_combineRatios ha.isNumeric hb.isNumeric] at hx
  obtain ⟨m, rfl, hm⟩ := ha.exists_exact
  obtain ⟨n, rfl, hn⟩ := hb.exists_exact
  exact .combined additive_add ha hb (Monzo.add_combines hm hn hr) hx hl

theorem Spells.sub {x : Option Literal} (ha : Spells s a v) (hb : Spells s b w)
    (hr : v.sub s w = .ok r) (hx : Literal.sub a b = .ok x)
    (hl : Literal.orRespelled r (some a) (some b) x = some l) : Spells s l r := by
  rw [sub_eq_combineRatios ha.isNumeric hb.isNumeric] at hx
  obtain ⟨m, rfl, hm⟩ := ha.exists_exact
  obtain ⟨n, rfl, hn⟩ := hb.exists_exact
  exact .combined additive_sub ha hb (Monzo.sub_combines hm hn hr) hx hl

/-! ## Products -/

theorem Denotes.of_exactRatio? {p : ℚ} (h : Denotes l p t) (hl : l.exactRatio? = some q) :
    p = q ∧ t = 0 := by
  cases h with
  | decimal => cases hl
  | integer n => exact ⟨Option.some.inj hl, rfl⟩
  | fraction hd =>
    rw [exactRatio?, if_neg hd] at hl
    exact ⟨Option.some.inj hl, rfl⟩

/-- The ratio of an integer or a fraction, and its value. -/
theorem Spells.of_exactRatio? (h : Spells s l v) (hl : l.exactRatio? = some q) :
    Denotes l q 0 ∧ ∃ m : Monzo, v = .exact m ∧ m.Canonical s ∧ m.ratio = q ∧ m.time = 0 := by
  cases h with
  | radical => cases hl
  | ratio h hm hq ht =>
    obtain ⟨rfl, rfl⟩ := h.of_exactRatio? hl
    exact ⟨h, _, rfl, hm, hq, ht⟩

/-- A value of a ratio is spelled by any literal of the ratio. -/
theorem Denotes.spells {m : Monzo} (h : Denotes l q 0) (hm : m.Canonical s) (hq : m.ratio = q)
    (ht : m.time = 0) : Spells s l (.exact m) := .ratio h hm hq ht

theorem denotes_ofRatio (q : ℚ) : Denotes (ofRatio q) q 0 := by
  unfold ofRatio
  split
  · next h =>
    have hq := Denotes.integer q.num
    rwa [Rat.den_eq_one_iff q |>.mp h] at hq
  · have hd : ((q.den : Nat) : Int) ≠ 0 := by exact_mod_cast q.den_ne_zero
    have hq := Denotes.fraction (n := q.num) hd
    rwa [Int.cast_natCast, Rat.num_div_den] at hq

theorem Denotes.mulExact {p : ℚ} (ha : Denotes a p 0) (hb : Denotes b q 0)
    (hpa : a.exactRatio? = some p) (hqb : b.exactRatio? = some q) :
    Denotes (Literal.mulExact a b) (p * q) 0 := by
  cases ha with
  | decimal => cases hpa
  | integer m =>
    cases hb with
    | decimal => cases hqb
    | integer n =>
      have h := Denotes.integer (m * n)
      rwa [Int.cast_mul] at h
    | @fraction n e he =>
      have h := Denotes.fraction (n := m * n) (mul_ne_zero one_ne_zero he)
      rwa [show (((m * n : Int) : ℚ) / ((1 * e : Int) : ℚ)) = (m : ℚ) * (n / e) by
        push_cast; ring] at h
  | @fraction m d hd =>
    cases hb with
    | decimal => cases hqb
    | integer n =>
      have h := Denotes.fraction (n := m * n) (mul_ne_zero hd one_ne_zero)
      rwa [show (((m * n : Int) : ℚ) / ((d * 1 : Int) : ℚ)) = (m : ℚ) / d * n by
        push_cast; ring] at h
    | @fraction n e he =>
      have h := Denotes.fraction (n := m * n) (mul_ne_zero hd he)
      push_cast at h
      rwa [mul_div_mul_comm] at h

/-- Without two ratios, literals of ratios and radicals have no product and no quotient. -/
theorem mul_eq_none (ha : a.isNumeric) (hb : b.isNumeric)
    (h : (a.exactRatio?.isSome && b.exactRatio?.isSome) = false) :
    Literal.mul a b = .ok none := by
  unfold Literal.mul
  rw [if_neg (by simp [h])]
  cases a <;> cases ha <;> cases b <;> cases hb <;> rfl

theorem Spells.mul (ha : Spells s a v) (hb : Spells s b w) (hr : v.mul s w = .ok r)
    (hl : Literal.mul a b = .ok (some l)) : Spells s l r := by
  by_cases h : (a.exactRatio?.isSome && b.exactRatio?.isSome) = true
  · unfold Literal.mul at hl
    rw [if_pos h] at hl
    cases hl
    rw [Bool.and_eq_true, Option.isSome_iff_exists, Option.isSome_iff_exists] at h
    obtain ⟨⟨p, hp⟩, q, hq⟩ := h
    obtain ⟨hda, m, rfl, hm, hmp, hmt⟩ := ha.of_exactRatio? hp
    obtain ⟨hdb, n, rfl, hn, hnq, hnt⟩ := hb.of_exactRatio? hq
    obtain ⟨y, hy, rfl⟩ := map_eq_ok.mp hr
    obtain ⟨hcy, hry, hty⟩ := hm.mul hn hy
    refine (hda.mulExact hdb hp hq).spells hcy (by rw [hry, hmp, hnq]) ?_
    rw [hty, hmt, hnt, add_zero]
  · rw [mul_eq_none ha.isNumeric hb.isNumeric (Bool.not_eq_true _ ▸ h)] at hl
    cases hl

theorem Denotes.divExact {p : ℚ} (ha : Denotes a p 0) (hb : Denotes b q 0)
    (hl : Literal.divExact a b p q = some l) : q ≠ 0 ∧ Denotes l (p / q) 0 := by
  unfold Literal.divExact at hl
  split at hl
  · cases hl
  · next hq =>
    refine ⟨hq, ?_⟩
    split at hl
    · next m n =>
      cases ha
      cases hb
      have hn : n ≠ 0 := by exact_mod_cast hq
      split at hl
      · cases hl
        have h := Denotes.fraction (n := -m) (neg_ne_zero.mpr hn)
        push_cast at h
        rwa [neg_div_neg_eq] at h
      · cases hl
        exact .fraction hn
    · cases hl
      exact denotes_ofRatio _

theorem div_eq_none (ha : a.isNumeric) (hb : b.isNumeric)
    (h : (a.exactRatio?.isSome && b.exactRatio?.isSome) = false) :
    Literal.div a b = .ok none := by
  unfold Literal.div
  split
  · next hx hy =>
    rw [hx, hy] at h
    cases h
  · cases a <;> cases ha <;> cases b <;> cases hb <;> rfl

theorem Spells.div (ha : Spells s a v) (hb : Spells s b w) (hr : v.div s w = .ok r)
    (hl : Literal.div a b = .ok (some l)) : Spells s l r := by
  by_cases h : (a.exactRatio?.isSome && b.exactRatio?.isSome) = true
  · rw [Bool.and_eq_true, Option.isSome_iff_exists, Option.isSome_iff_exists] at h
    obtain ⟨⟨p, hp⟩, q, hq⟩ := h
    obtain ⟨hda, m, rfl, hm, hmp, hmt⟩ := ha.of_exactRatio? hp
    obtain ⟨hdb, n, rfl, hn, hnq, hnt⟩ := hb.of_exactRatio? hq
    replace hl : Literal.divExact a b p q = some l := by
      unfold Literal.div at hl
      rw [hp, hq] at hl
      exact Except.ok.inj hl
    obtain ⟨hq0, hd⟩ := hda.divExact hdb hl
    replace hr : (if n.residual = 0 then _ else _) = Except.ok r := hr
    rw [if_neg (mt hn.ratio_eq_zero_iff.mpr (hnq ▸ hq0))] at hr
    obtain ⟨y, hy, rfl⟩ := map_eq_ok.mp hr
    obtain ⟨hcy, hry, hty⟩ := hm.divNonzero hn hy
    refine hd.spells hcy (by rw [hry, hmp, hnq]) ?_
    rw [hty, hmt, hnt, sub_zero]
  · rw [div_eq_none ha.isNumeric hb.isNumeric (Bool.not_eq_true _ ▸ h)] at hl
    cases hl

/-! ## Measuring -/

/-- An operation that gives twins for twins is spelled through the values of written ratios. -/
theorem Spells.throughValues {op : Monzo → Monzo → Except Fault Value}
    {real : Approx → Approx → Except Fault Approx}
    (hop : ∀ {m m' n n' : Monzo}, m.Twins s m' → n.Twins s n' →
      Both (Value.Twins s) (op m n) (op m' n'))
    (ha : Spells s a v) (hb : Spells s b w) (hr : Value.lift op real v w = .ok r)
    (hl : Literal.throughValues s op a b = some l) : Spells s l r := by
  unfold Literal.throughValues at hl
  split at hl
  · next p q hp hq =>
    obtain ⟨-, m, rfl, hm, hmp, hmt⟩ := ha.of_exactRatio? hp
    obtain ⟨-, n, rfl, hn, hnq, hnt⟩ := hb.of_exactRatio? hq
    obtain ⟨x, hx, rfl⟩ := Option.map_eq_some_iff.mp hl
    have hx' : (do
        let m ← Monzo.ofRatio s p
        let n ← Monzo.ofRatio s q
        let v ← op m n
        v.toRatio) = Except.ok x := by
      unfold exactResult? at hx
      simp only [Except.toOption] at hx
      split at hx
      · next y hy =>
        cases hx
        exact hy
      · cases hx
    obtain ⟨m', hm', h1⟩ := bind_eq_ok.mp hx'
    obtain ⟨n', hn', h2⟩ := bind_eq_ok.mp h1
    obtain ⟨u, hu, hux⟩ := bind_eq_ok.mp h2
    obtain ⟨hcm, hrm, htm⟩ := Monzo.canonical_ofRatio hm'
    obtain ⟨hcn, hrn, htn⟩ := Monzo.canonical_ofRatio hn'
    -- the written ratios lower to twins of the operands
    have htwins : Value.Twins s r u := hop ⟨hm, hcm, by rw [hmp, hrm], hmt, htm⟩
      ⟨hn, hcn, by rw [hnq, hrn], hnt, htn⟩ r hr u hu
    cases htwins with
    | real y => cases hux
    | @exact y z hyz =>
      have hz : z.toRatio = .ok x := hux
      rw [hyz.right.toRatio, ← hyz.ratio_eq] at hz
      exact (denotes_ofRatio x).spells hyz.left (Except.ok.inj hz) hyz.left_time
  · cases hl

end Literal

end Intonation
