import Intonation.Proofs.Monzo.Holding
import Intonation.Proofs.Ratio.Valuation

/-!
# Common divisors and multiples of ratios

A common divisor takes the smaller exponents, and the common divisor of what is left in the
residuals. Of two ratios other than zero this is the greatest common divisor, over any basis. The
exponents of zero are all zero, though, whatever zero is a multiple of: the common divisor of zero
and another ratio lacks the primes of the basis that divide the numerator of the ratio.

A common multiple with zero is zero, so that common multiples are least common multiples without
exception.

## Main definitions

* `Prime.divisorOver`, `Prime.multipleOver`: a divisor and a multiple from exponents and residuals

## Main statements

* `Prime.isGcd_divisorOver_iff`, `Prime.isLcm_multipleOver`: what they are of ratios
* `Monzo.gcd_lcm_universal`: the same of values, over any bases
-/

namespace Intonation

namespace Prime

variable {primes : List Nat} {x y : ℚ}

/-! ## Exponents by position -/

/-- The exponents in a ratio, and zeros for zero. -/
theorem split_exponents (h : Distinct primes) (q : ℚ) :
    (split primes q).1 = primes.map fun p => padicValRat p q := by
  rcases eq_or_ne q 0 with rfl | hq
  · simp [split]
  · exact (map_padicValRat_split h hq).symm

theorem split_residual_eq_zero_iff (h : Distinct primes) {q : ℚ} :
    (split primes q).2 = 0 ↔ q = 0 :=
  not_iff_not.mp (Monzo.residual_split_ne_zero_iff h)

/-- The exponent of a prime in what is left. -/
theorem padicValRat_split (h : Distinct primes) {p : Nat} (hp : p.Prime) (q : ℚ) :
    padicValRat p (split primes q).2 = if p ∈ primes then 0 else padicValRat p q := by
  split
  · next hmem => exact (split_spec h q).2.1 p hmem
  · next hmem =>
    rcases eq_or_ne q 0 with rfl | hq
    · rw [(split_residual_eq_zero_iff h).mpr rfl]
    · exact padicValRat_residual h hp hmem hq

/-- The exponents in a product of powers and a ratio without the primes. -/
theorem padicValRat_mul_powerProduct (h : Distinct primes) (f : Nat → Int) {r : ℚ} (hr : r ≠ 0)
    (hfree : Free primes r) {p : Nat} (hp : p.Prime) :
    padicValRat p (r * powerProduct primes (primes.map f)) =
      if p ∈ primes then f p else padicValRat p r := by
  have := Fact.mk hp
  split
  · next hmem =>
    have hmap := map_padicValRat_powerProduct h (primes.map f) (List.length_map _) hr hfree
    exact List.map_inj_left.mp hmap p hmem
  · next hmem =>
    rw [padicValRat.mul hr (powerProduct_pos h _).ne',
      padicValRat_powerProduct_of_notMem h hp hmem, add_zero]

/-! ## Divisors and multiples over a row of primes -/

/-- The product of the smaller powers and the common divisor of what is left. -/
def divisorOver (primes : List Nat) (x y : ℚ) : ℚ :=
  Ratio.gcd (split primes x).2 (split primes y).2 *
    powerProduct primes (primes.map fun p => min (padicValRat p x) (padicValRat p y))

/-- The product of the larger powers and the common multiple of what is left. -/
def multipleOver (primes : List Nat) (x y : ℚ) : ℚ :=
  Ratio.lcm (split primes x).2 (split primes y).2 *
    powerProduct primes (primes.map fun p => max (padicValRat p x) (padicValRat p y))

theorem divisorOver_comm (primes : List Nat) (x y : ℚ) :
    divisorOver primes x y = divisorOver primes y x := by
  simp only [divisorOver, Ratio.gcd_comm (split primes x).2, min_comm]

section
variable (h : Distinct primes)
include h

theorem divisorOver_nonneg (x y : ℚ) : 0 ≤ divisorOver primes x y :=
  mul_nonneg (Ratio.gcd_nonneg _ _) (powerProduct_pos h _).le

theorem multipleOver_nonneg (x y : ℚ) : 0 ≤ multipleOver primes x y :=
  mul_nonneg (Ratio.lcm_nonneg _ _) (powerProduct_pos h _).le

theorem divisorOver_eq_zero_iff : divisorOver primes x y = 0 ↔ x = 0 ∧ y = 0 := by
  rw [divisorOver, mul_eq_zero, or_iff_left (powerProduct_pos h _).ne', Ratio.gcd_eq_zero_iff,
    split_residual_eq_zero_iff h, split_residual_eq_zero_iff h]

theorem multipleOver_eq_zero_iff : multipleOver primes x y = 0 ↔ x = 0 ∨ y = 0 := by
  rw [multipleOver, mul_eq_zero, or_iff_left (powerProduct_pos h _).ne', Ratio.lcm_eq_zero_iff,
    split_residual_eq_zero_iff h, split_residual_eq_zero_iff h]

/-- The exponents in a divisor of ratios other than zero. -/
theorem padicValRat_divisorOver (hx : x ≠ 0) (hy : y ≠ 0) {p : Nat} (hp : p.Prime) :
    padicValRat p (divisorOver primes x y) = min (padicValRat p x) (padicValRat p y) := by
  have hx' := mt (split_residual_eq_zero_iff h).mp hx
  have hy' := mt (split_residual_eq_zero_iff h).mp hy
  rw [divisorOver, padicValRat_mul_powerProduct h _ (mt Ratio.gcd_eq_zero_iff.mp fun h0 => hx' h0.1)
    ((split_spec h x).2.1.gcd h (split_spec h y).2.1) hp, Ratio.padicValRat_gcd hp hx' hy',
    padicValRat_split h hp, padicValRat_split h hp]
  split <;> rfl

theorem padicValRat_multipleOver (hx : x ≠ 0) (hy : y ≠ 0) {p : Nat} (hp : p.Prime) :
    padicValRat p (multipleOver primes x y) = max (padicValRat p x) (padicValRat p y) := by
  have hx' := mt (split_residual_eq_zero_iff h).mp hx
  have hy' := mt (split_residual_eq_zero_iff h).mp hy
  rw [multipleOver, padicValRat_mul_powerProduct h _
    (mt Ratio.lcm_eq_zero_iff.mp (not_or.mpr ⟨hx', hy'⟩))
    (Monzo.free_lcm h (split_spec h x).2.1 (split_spec h y).2.1) hp,
    Ratio.padicValRat_lcm hp hx' hy', padicValRat_split h hp, padicValRat_split h hp]
  split <;> rfl

/-- The exponents in a divisor of zero and another ratio: those of the basis are not positive. -/
theorem padicValRat_divisorOver_zero (hy : y ≠ 0) {p : Nat} (hp : p.Prime) :
    padicValRat p (divisorOver primes 0 y) =
      if p ∈ primes then min 0 (padicValRat p y) else padicValRat p y := by
  have hy' := mt (split_residual_eq_zero_iff h).mp hy
  rw [divisorOver, padicValRat_mul_powerProduct h _ (mt Ratio.gcd_eq_zero_iff.mp fun h0 => hy' h0.2)
    ((split_spec h 0).2.1.gcd h (split_spec h y).2.1) hp, padicValRat.zero,
    (split_residual_eq_zero_iff h).mpr rfl, Ratio.gcd_zero_left]
  split
  · rfl
  · next hmem =>
    -- only the residual of the other ratio is left, up to its sign
    rcases abs_choice (split primes y).2 with habs | habs <;> rw [habs]
    · rw [padicValRat_split h hp, if_neg hmem]
    · rw [padicValRat.neg, padicValRat_split h hp, if_neg hmem]

/-! ### What they are of ratios -/

theorem isMultiple_divisorOver (x y : ℚ) : Ratio.IsMultiple y (divisorOver primes x y) := by
  rcases eq_or_ne y 0 with rfl | hy
  · exact Ratio.isMultiple_zero _
  · have hg : divisorOver primes x y ≠ 0 :=
      mt (divisorOver_eq_zero_iff h).mp fun h0 => hy h0.2
    refine (Ratio.isMultiple_iff hy hg).mpr fun p hp => ?_
    rcases eq_or_ne x 0 with rfl | hx
    · rw [padicValRat_divisorOver_zero h hy hp]
      split
      · exact min_le_right _ _
      · exact le_rfl
    · rw [padicValRat_divisorOver h hx hy hp]
      exact min_le_right _ _

/-- Zero and another ratio have a greatest common divisor over the primes when none of these
divides the numerator of the ratio. -/
theorem isGcd_divisorOver_zero_iff (hy : y ≠ 0) : Ratio.IsGcd (divisorOver primes 0 y) 0 y ↔
    ∀ p ∈ primes, padicValRat p y ≤ 0 := by
  have hg : divisorOver primes 0 y ≠ 0 := mt (divisorOver_eq_zero_iff h).mp fun h0 => hy h0.2
  rw [Ratio.isGcd_zero_left_iff, and_iff_right (isMultiple_divisorOver h 0 y),
    Ratio.isMultiple_iff hg hy]
  constructor
  · intro hle p hmem
    have hp := hle p (h.prime p hmem)
    rw [padicValRat_divisorOver_zero h hy (h.prime p hmem), if_pos hmem] at hp
    exact hp.trans (min_le_left _ _)
  · intro hle p hp
    rw [padicValRat_divisorOver_zero h hy hp]
    split
    · next hmem => exact le_min (hle p hmem) le_rfl
    · exact le_rfl

/-- When the divisor is the greatest one: always for ratios other than zero. -/
theorem isGcd_divisorOver_iff (x y : ℚ) : Ratio.IsGcd (divisorOver primes x y) x y ↔
    (x = 0 ↔ y = 0) ∨ ∀ p ∈ primes, padicValRat p x ≤ 0 ∧ padicValRat p y ≤ 0 := by
  rcases eq_or_ne x 0 with rfl | hx
  · rcases eq_or_ne y 0 with rfl | hy
    · rw [(divisorOver_eq_zero_iff h).mpr ⟨rfl, rfl⟩]
      simp only [true_or, iff_true]
      exact ⟨Ratio.isMultiple_zero 0, Ratio.isMultiple_zero 0, fun d hd _ => hd⟩
    · rw [isGcd_divisorOver_zero_iff h hy]
      simp [hy]
  · rcases eq_or_ne y 0 with rfl | hy
    · rw [divisorOver_comm, Ratio.isGcd_comm, isGcd_divisorOver_zero_iff h hx]
      simp [hx]
    -- every prime has the smaller of its exponents, in the basis or not
    · simp only [hx, hy, true_or, iff_true]
      exact Ratio.isGcd_of_padicValRat hx hy (mt (divisorOver_eq_zero_iff h).mp fun h0 => hx h0.1)
        fun p hp => padicValRat_divisorOver h hx hy hp

/-- The multiple is always the least one. -/
theorem isLcm_multipleOver (x y : ℚ) : Ratio.IsLcm (multipleOver primes x y) x y := by
  by_cases h0 : x = 0 ∨ y = 0
  · rw [(multipleOver_eq_zero_iff h).mpr h0]
    exact Ratio.isLcm_zero h0
  · have hl := mt (multipleOver_eq_zero_iff h).mp h0
    rw [not_or] at h0
    exact Ratio.isLcm_of_padicValRat h0.1 h0.2 hl fun p hp =>
      padicValRat_multipleOver h h0.1 h0.2 hp

end

/-! ### Over other primes -/

variable {others : List Nat}

theorem multipleOver_congr (h : Distinct primes) (h' : Distinct others) (x y : ℚ) :
    multipleOver primes x y = multipleOver others x y :=
  (isLcm_multipleOver h x y).unique (multipleOver_nonneg h x y) (multipleOver_nonneg h' x y)
    (isLcm_multipleOver h' x y)

theorem divisorOver_zero_congr_iff (h : Distinct primes) (h' : Distinct others) (hy : y ≠ 0) :
    divisorOver primes 0 y = divisorOver others 0 y ↔
      ∀ p : Nat, p.Prime → (p ∈ primes ↔ p ∈ others) ∨ padicValRat p y ≤ 0 := by
  have hpos : ∀ {row : List Nat}, Distinct row → 0 < divisorOver row 0 y := fun hd =>
    (divisorOver_nonneg hd 0 y).lt_of_ne' (mt (divisorOver_eq_zero_iff hd).mp fun h0 => hy h0.2)
  rw [Ratio.eq_iff_padicValRat (hpos h) (hpos h')]
  refine forall₂_congr fun p hp => ?_
  rw [padicValRat_divisorOver_zero h hy hp, padicValRat_divisorOver_zero h' hy hp]
  by_cases hmem : p ∈ primes <;> by_cases hmem' : p ∈ others <;> simp [hmem, hmem']

/-- When the divisors over two rows of primes are the same: always for ratios other than zero. -/
theorem divisorOver_congr_iff (h : Distinct primes) (h' : Distinct others) (x y : ℚ) :
    divisorOver primes x y = divisorOver others x y ↔ (x = 0 ↔ y = 0) ∨
      ∀ p : Nat, p.Prime → (p ∈ primes ↔ p ∈ others) ∨
        padicValRat p x ≤ 0 ∧ padicValRat p y ≤ 0 := by
  by_cases h0 : x = 0 ↔ y = 0
  · simp only [h0, true_or, iff_true]
    exact ((isGcd_divisorOver_iff h x y).mpr (.inl h0)).unique (divisorOver_nonneg h x y)
      (divisorOver_nonneg h' x y) ((isGcd_divisorOver_iff h' x y).mpr (.inl h0))
  · rw [or_iff_right h0]
    rcases eq_or_ne x 0 with rfl | hx
    · have hy : y ≠ 0 := fun hy => h0 (iff_of_true rfl hy)
      rw [divisorOver_zero_congr_iff h h' hy]
      simp
    · obtain rfl : y = 0 := by_contra fun hy => h0 (iff_of_false hx hy)
      rw [divisorOver_comm, divisorOver_comm others, divisorOver_zero_congr_iff h h' hx]
      simp

end Prime

namespace Monzo
open Double Intonation.Prime

variable {s t u : Settings} {a b c d m : Monzo} {x y : ℚ} {j k : Nat}

/-! ## Common bases -/

/-- Zero over more primes. -/
theorem spread_zero (hj : j ≤ tableSize) (hk : k ≤ tableSize) (hle : j ≤ k) :
    spread k (wholes (split (table.take j) 0).1, (split (table.take j) 0).2) =
      (wholes (split (table.take k) 0).1, (split (table.take k) 0).2) := by
  have hsplit : ∀ {count : Nat}, count ≤ tableSize →
      split (table.take count) 0 = (List.replicate count 0, 0) := by
    intro count hcount
    rw [split, if_pos rfl, List.map_const', length_take_table hcount]
  rw [hsplit hj, hsplit hk]
  rcases hle.eq_or_lt with rfl | hlt
  · exact spread_of_le (by rw [length_wholes, List.length_replicate])
  · have hzeros : padded k (wholes (List.replicate j 0)) = wholes (List.replicate k 0) := by
      rw [padded, wholes, wholes, List.map_replicate, List.map_replicate, List.length_replicate,
        Int.cast_zero, List.replicate_append_replicate, Nat.add_sub_cancel' hle]
    have hlen : (wholes (List.replicate j 0)).length < k := by
      rwa [length_wholes, List.length_replicate]
    rw [spread, if_pos hlen, hsplit hk, IsVector.addExponents_replicate_zero, hzeros]

/-- A ratio over more primes than it was built with. -/
theorem spread_of_ofRatioOver (h : ofRatioOver s j x = .ok a) (hle : j ≤ k) (hk : k ≤ tableSize) :
    spread k a.parts = (wholes (split (table.take k) x).1, (split (table.take k) x).2) := by
  rcases eq_or_ne x 0 with rfl | hx
  · obtain ⟨hj, -⟩ := ofRatioOver_eq_ok_iff.mp h
    obtain rfl := parts_of_ofRatioOver h
    exact spread_zero hj hk hle
  · exact spread_ofRatioOver hx h hle hk

theorem components_ofRatioOver (h : ofRatioOver s j x = .ok a) :
    j ≤ tableSize ∧ a.components = j := by
  obtain ⟨hj, -⟩ := ofRatioOver_eq_ok_iff.mp h
  obtain rfl := parts_of_ofRatioOver h
  rw [components, length_wholes, (split_spec (distinct_table.take j) x).1, length_take_table hj]
  exact ⟨hj, rfl⟩

theorem isRatio_ofRatioOver (h : ofRatioOver s j x = .ok a) : a.IsRatio False 0 x := by
  have hbuilt : Barring False (·.IsRatio False 0 x) (ofRatioOver s j x) :=
    IsRatio.ofRatioOver (.inl (components_ofRatioOver h).1) x
  rwa [h] at hbuilt

/-- A ratio over a row of primes, as one side of a common basis. -/
structure Over (count : Nat) (x : ℚ) (m : Monzo) : Prop where
  exps : m.exps = wholes ((table.take count).map fun p => padicValRat p x)
  residual : m.residual = (split (table.take count) x).2
  time : m.time = 0
  uncorrected : m.cents == 0

/-- Two ratios are taken over the larger of their bases, or a bound is exceeded. -/
theorem barring_align (ha : ofRatioOver t j x = .ok a) (hb : ofRatioOver u k y = .ok b) :
    Barring False (fun c : Monzo × Monzo => Over (max j k) x c.1 ∧ Over (max j k) y c.2)
      (align s a b) := by
  obtain ⟨hj, hcomponentsa⟩ := components_ofRatioOver ha
  obtain ⟨hk, hcomponentsb⟩ := components_ofRatioOver hb
  have hratioa := isRatio_ofRatioOver ha
  have hratiob := isRatio_ofRatioOver hb
  refine ((hratioa.align hratiob).and_of_ok (R := fun c => align s a b = .ok c)
    fun _ hc => hc).mono ?_
  rintro ⟨c, d⟩ ⟨⟨hc, hd, -⟩, halign⟩
  obtain ⟨hpartsc, hpartsd, -⟩ := parts_of_align halign
  have hmax : max j k ≤ tableSize := max_le hj hk
  -- either one is taken over the larger number of primes
  have hover : ∀ {e f : Monzo} {z : ℚ} {s : Settings} {i : Nat},
      ofRatioOver s i z = .ok f → i ≤ max j k → e.parts = spread (max j k) f.parts →
        e.IsRatio False 0 z → Over (max j k) z e := by
    intro e f z s i hf hi hparts he
    rw [spread_of_ofRatioOver hf hi hmax] at hparts
    refine ⟨(congrArg Prod.fst hparts).trans ?_, congrArg Prod.snd hparts, he.time, he.uncorrected⟩
    rw [split_exponents (distinct_table.take _)]
  refine ⟨hover ha (le_max_left _ _) ?_ hc, hover hb (le_max_right _ _) ?_ hd⟩
  · have hspread := spread_max k a.parts
    rw [show a.parts.1.length = j from hcomponentsa] at hspread
    rw [hpartsc, hcomponentsb, hspread]
  · have hspread := spread_max j b.parts
    rw [show b.parts.1.length = k from hcomponentsb, max_comm] at hspread
    rw [hpartsd, hcomponentsa, hspread]

/-- Two ratios over one basis, combined exponent by exponent. -/
theorem Over.zipWith {op : Int → Int → Int} {op' : ℚ → ℚ → ℚ} {time r : ℚ} {cents : Float}
    (hc : Over k x c) (hd : Over k y d) (hk : k ≤ tableSize)
    (hop : ∀ i j : Int, ((op i j : Int) : ℚ) = op' i j) (htime : time = 0) (hcents : cents == 0) :
    Barring False (·.IsRatio False 0 (r * powerProduct (table.take k)
        ((table.take k).map fun p => op (padicValRat p x) (padicValRat p y))))
      (checked s { time, exps := c.exps.zipWith op' d.exps, residual := r, cents }) := by
  have hlen : ((table.take k).map fun p => op (padicValRat p x) (padicValRat p y)).length = k := by
    rw [List.length_map, length_take_table hk]
  have hexps : c.exps.zipWith op' d.exps =
      wholes ((table.take k).map fun p => op (padicValRat p x) (padicValRat p y)) := by
    rw [hc.exps, hd.exps, wholes_zipWith op op' hop, List.zipWith_map, List.zipWith_self]
  refine IsRatio.checked ⟨htime, hcents, .inl ?_, _, ?_, hexps, ?_⟩
  · rw [components, hexps, length_wholes, hlen]
    exact hk
  · rw [List.drop_of_length_le (hlen.trans_le hk)]
    simp
  · rw [powerProduct_take table _ hlen.le]

theorem least_intCast (i j : Int) : ((min i j : Int) : ℚ) = Ratio.least i j := by
  unfold Ratio.least
  by_cases h : j < i
  · rw [if_pos (by exact_mod_cast h), min_eq_right h.le]
  · rw [if_neg (by exact_mod_cast h), min_eq_left (not_lt.mp h)]

/-! ## Divisors and multiples of values -/

section
variable (ha : ofRatioOver t j x = .ok a) (hb : ofRatioOver u k y = .ok b)
include ha hb

theorem max_le_tableSize : max j k ≤ tableSize :=
  max_le (components_ofRatioOver ha).1 (components_ofRatioOver hb).1

theorem isRatio_gcd :
    Barring False (·.IsRatio False 0 (divisorOver (table.take (max j k)) x y)) (a.gcd s b) := by
  refine (barring_align ha hb).bind fun c hc => ?_
  obtain ⟨hc, hd⟩ := hc
  rw [divisorOver, ← hc.residual, ← hd.residual]
  refine hc.zipWith hd (max_le_tableSize ha hb) least_intCast ?_ ?_
  · rw [hc.time, hd.time]
    rfl
  · unfold Double.least
    split
    · exact hd.uncorrected
    · exact hc.uncorrected

theorem isRatio_lcm :
    Barring False (·.IsRatio False 0 (multipleOver (table.take (max j k)) x y)) (a.lcm s b) := by
  refine (barring_align ha hb).bind fun c hc => ?_
  obtain ⟨hc, hd⟩ := hc
  rw [multipleOver, ← hc.residual, ← hd.residual]
  refine hc.zipWith hd (max_le_tableSize ha hb) (fun i j => (greatest_intCast i j).symm) ?_ ?_
  · rw [hc.time, hd.time]
    rfl
  · unfold Double.greatest
    split
    · exact hd.uncorrected
    · exact hc.uncorrected

end

/-- The common divisor and the common multiple of two ratios, built over any bases and under any
settings, are found or overflow. Both ratios are multiples of the divisor. It is a greatest common
divisor unless only one of the ratios is zero and a prime of the larger basis divides the numerator
of the other one, and it is the same over other bases unless the prime is in one of the larger bases
only. The multiple is a least common multiple, whatever the bases. -/
theorem gcd_lcm_universal (s t u : Settings) (j k : Nat) (x y : ℚ) (a b : Monzo)
    (ha : ofRatioOver t j x = .ok a) (hb : ofRatioOver u k y = .ok b) :
    Barring False (fun g => ∃ q, g.toRatio = .ok q ∧ g.time = 0 ∧ 0 ≤ q ∧
        Ratio.IsMultiple x q ∧ Ratio.IsMultiple y q ∧
        (Ratio.IsGcd q x y ↔ (x = 0 ↔ y = 0) ∨
          ∀ p ∈ table.take (max j k), padicValRat p x ≤ 0 ∧ padicValRat p y ≤ 0)) (a.gcd s b) ∧
      Barring False (fun l => ∃ r, l.toRatio = .ok r ∧ l.time = 0 ∧ 0 ≤ r ∧
        Ratio.IsLcm r x y ∧ (r = 0 ↔ x = 0 ∨ y = 0)) (a.lcm s b) ∧
      ∀ (s' t' u' : Settings) (j' k' : Nat) (a' b' : Monzo),
        ofRatioOver t' j' x = .ok a' → ofRatioOver u' k' y = .ok b' →
          Both (fun g g' => g.toRatio = g'.toRatio ↔ (x = 0 ↔ y = 0) ∨
            ∀ p : Nat, p.Prime → (p ∈ table.take (max j k) ↔ p ∈ table.take (max j' k')) ∨
              padicValRat p x ≤ 0 ∧ padicValRat p y ≤ 0) (a.gcd s b) (a'.gcd s' b') ∧
          Both (fun l l' => l.toRatio = l'.toRatio) (a.lcm s b) (a'.lcm s' b') := by
  have hd := fun count : Nat => distinct_table.take count
  refine ⟨(isRatio_gcd ha hb).mono fun g hg => ?_, (isRatio_lcm ha hb).mono fun l hl => ?_,
    fun s' t' u' j' k' a' b' ha' hb' => ⟨fun g hg g' hg' => ?_, fun l hl l' hl' => ?_⟩⟩
  · refine ⟨_, hg.toRatio, hg.time, divisorOver_nonneg (hd _) x y, ?_,
      isMultiple_divisorOver (hd _) x y, isGcd_divisorOver_iff (hd _) x y⟩
    rw [divisorOver_comm]
    exact isMultiple_divisorOver (hd _) y x
  · exact ⟨_, hl.toRatio, hl.time, multipleOver_nonneg (hd _) x y, isLcm_multipleOver (hd _) x y,
      multipleOver_eq_zero_iff (hd _)⟩
  · have hq := isRatio_gcd (s := s) ha hb
    have hq' := isRatio_gcd (s := s') ha' hb'
    rw [hg] at hq
    rw [hg'] at hq'
    show g.toRatio = g'.toRatio ↔ _
    rw [IsRatio.toRatio hq, IsRatio.toRatio hq', Except.ok.injEq]
    exact divisorOver_congr_iff (hd _) (hd _) x y
  · have hr := isRatio_lcm (s := s) ha hb
    have hr' := isRatio_lcm (s := s') ha' hb'
    rw [hl] at hr
    rw [hl'] at hr'
    show l.toRatio = l'.toRatio
    rw [IsRatio.toRatio hr, IsRatio.toRatio hr', multipleOver_congr (hd _) (hd _) x y]

/-- Minus twelve thirty-fifths over one prime and eighteen forty-ninths over three. -/
theorem gcd_lcm_universal_mixed : ∃ a b g l q r, ofRatioOver {} 1 (-12 / 35) = .ok a ∧
    ofRatioOver {} 3 (18 / 49) = .ok b ∧ a.gcd {} b = .ok g ∧ a.lcm {} b = .ok l ∧
    g.toRatio = .ok q ∧ l.toRatio = .ok r ∧ Ratio.IsGcd q (-12 / 35) (18 / 49) ∧
    Ratio.IsLcm r (-12 / 35) (18 / 49) := by
  have hok : (ofRatioOver {} 1 (-12 / 35) >>= fun a => ofRatioOver {} 3 (18 / 49) >>= fun b =>
      a.gcd {} b >>= fun _ => (a.lcm {} b).map fun _ => ()) = .ok () := by decide +kernel
  obtain ⟨a, ha, hok⟩ := bind_eq_ok.mp hok
  obtain ⟨b, hb, hok⟩ := bind_eq_ok.mp hok
  obtain ⟨g, hg, hok⟩ := bind_eq_ok.mp hok
  obtain ⟨l, hl, -⟩ := map_eq_ok.mp hok
  obtain ⟨hgcd, hlcm, -⟩ := gcd_lcm_universal {} {} {} 1 3 _ _ a b ha hb
  rw [hg] at hgcd
  rw [hl] at hlcm
  obtain ⟨q, hq, -, -, -, -, hiff⟩ := hgcd
  obtain ⟨r, hr, -, -, hleast, -⟩ := hlcm
  exact ⟨a, b, g, l, q, r, ha, hb, hg, hl, hq, hr, hiff.mpr (.inl (by norm_num)), hleast⟩

/-- Zero and eight over one prime have the common divisor one, of which eight is a multiple but
which is no multiple of eight; over no primes they have the common divisor eight. -/
theorem gcd_of_zero : ∃ a b a' b' g g', ofRatioOver {} 1 0 = .ok a ∧ ofRatioOver {} 1 8 = .ok b ∧
    a.gcd {} b = .ok g ∧ g.toRatio = .ok 1 ∧ ¬ Ratio.IsGcd 1 0 8 ∧
    ofRatioOver {} 0 0 = .ok a' ∧ ofRatioOver {} 0 8 = .ok b' ∧
    a'.gcd {} b' = .ok g' ∧ g'.toRatio = .ok 8 ∧ Ratio.IsGcd 8 0 8 := by
  have hone : (ofRatioOver {} 1 0 >>= fun a => ofRatioOver {} 1 8 >>= fun b =>
      a.gcd {} b >>= fun g => g.toRatio) = .ok 1 := by decide +kernel
  have hnone : (ofRatioOver {} 0 0 >>= fun a => ofRatioOver {} 0 8 >>= fun b =>
      a.gcd {} b >>= fun g => g.toRatio) = .ok 8 := by decide +kernel
  obtain ⟨a, ha, hone⟩ := bind_eq_ok.mp hone
  obtain ⟨b, hb, hone⟩ := bind_eq_ok.mp hone
  obtain ⟨g, hg, hone⟩ := bind_eq_ok.mp hone
  obtain ⟨a', ha', hnone⟩ := bind_eq_ok.mp hnone
  obtain ⟨b', hb', hnone⟩ := bind_eq_ok.mp hnone
  obtain ⟨g', hg', hnone⟩ := bind_eq_ok.mp hnone
  refine ⟨a, b, a', b', g, g', ha, hb, hg, hone, fun hgcd => ?_, ha', hb', hg', hnone, ?_⟩
  · obtain ⟨k, hk⟩ := (Ratio.isGcd_zero_left_iff.mp hgcd).2
    have hk' : (1 : Int) = k * 8 := by exact_mod_cast hk
    omega
  · have hself : Ratio.IsMultiple 8 8 := ⟨1, by norm_num⟩
    exact Ratio.isGcd_zero_left_iff.mpr ⟨hself, hself⟩

end Monzo

end Intonation
