import Intonation.Monzo.Divisors
import Mathlib.NumberTheory.Padics.PadicVal.Basic
import Mathlib.Tactic

/-!
# Ratios by their valuations

The exponents of the primes in a ratio tell its denominator, its common divisors and its common
multiples. A ratio other than zero is a whole multiple of another one exactly when no prime has a
smaller exponent in it.

## Main definitions

* `Ratio.IsMultiple`: a whole multiple of a ratio
* `Ratio.IsGcd`, `Ratio.IsLcm`: greatest common divisors and least common multiples

## Main statements

* `dvd_den_iff`: the primes of the denominator
* `isMultiple_iff`: multiples by exponents
* `padicValRat_gcd`, `padicValRat_lcm`: the exponents of a divisor and of a multiple
* `isGcd_of_padicValRat`, `isLcm_of_padicValRat`: the universal properties by exponents
-/

namespace Intonation.Ratio

variable {p : Nat} {d g l q x y : ℚ}

/-! ## Denominators -/

/-- No prime divides both the numerator and the denominator. -/
theorem padicValNat_num_or_den (hp : p.Prime) (q : ℚ) :
    padicValNat p q.num.natAbs = 0 ∨ padicValNat p q.den = 0 := by
  by_cases hnum : p ∣ q.num.natAbs
  · refine .inr (padicValNat.eq_zero_of_not_dvd fun hden => ?_)
    exact hp.not_dvd_one (q.reduced.gcd_eq_one ▸ Nat.dvd_gcd hnum hden)
  · exact .inl (padicValNat.eq_zero_of_not_dvd hnum)

/-- A prime divides the denominator when its exponent is negative. -/
theorem dvd_den_iff (hp : p.Prime) : p ∣ q.den ↔ padicValRat p q < 0 := by
  have := Fact.mk hp
  have hover := padicValNat_num_or_den hp q
  rw [dvd_iff_padicValNat_ne_zero q.den_ne_zero, padicValRat_def, padicValInt]
  omega

/-- A ratio is an integer when no prime has a negative exponent. -/
theorem den_eq_one_iff : q.den = 1 ↔ ∀ p : Nat, p.Prime → 0 ≤ padicValRat p q := by
  rw [Nat.eq_one_iff_not_exists_prime_dvd]
  exact forall₂_congr fun p hp => (dvd_den_iff hp).not.trans not_lt

/-! ## Multiples -/

/-- A whole multiple of a ratio. -/
def IsMultiple (x d : ℚ) : Prop := ∃ k : Int, x = k * d

theorem isMultiple_zero (d : ℚ) : IsMultiple 0 d := ⟨0, by rw [Int.cast_zero, zero_mul]⟩

theorem isMultiple_zero_right_iff : IsMultiple x 0 ↔ x = 0 := by
  simp [IsMultiple]

theorem IsMultiple.trans (h : IsMultiple x y) (h' : IsMultiple y d) : IsMultiple x d := by
  obtain ⟨k, rfl⟩ := h
  obtain ⟨j, rfl⟩ := h'
  exact ⟨k * j, by rw [Int.cast_mul, mul_assoc]⟩

/-- No prime has a smaller exponent in a multiple. -/
theorem isMultiple_iff (hx : x ≠ 0) (hd : d ≠ 0) :
    IsMultiple x d ↔ ∀ p : Nat, p.Prime → padicValRat p d ≤ padicValRat p x := by
  -- a multiple is whole when the quotient is an integer
  have hquotient : IsMultiple x d ↔ (x / d).den = 1 := by
    constructor
    · rintro ⟨k, rfl⟩
      rw [mul_div_cancel_right₀ _ hd, Rat.den_intCast]
    · intro hden
      exact ⟨(x / d).num, by rw [Rat.coe_int_num_of_den_eq_one hden, div_mul_cancel₀ x hd]⟩
  rw [hquotient, den_eq_one_iff]
  refine forall₂_congr fun p hp => ?_
  have := Fact.mk hp
  rw [padicValRat.div hx hd, sub_nonneg]

/-- A ratio of which two ratios are multiples, and which is a multiple of every such ratio. -/
structure IsGcd (g x y : ℚ) : Prop where
  left : IsMultiple x g
  right : IsMultiple y g
  greatest : ∀ d, IsMultiple x d → IsMultiple y d → IsMultiple g d

/-- A multiple of two ratios of which every common multiple is a multiple. -/
structure IsLcm (l x y : ℚ) : Prop where
  left : IsMultiple l x
  right : IsMultiple l y
  least : ∀ m, IsMultiple m x → IsMultiple m y → IsMultiple m l

/-! ### Uniqueness -/

/-- Ratios that are multiples of each other are equal up to sign. -/
theorem eq_of_isMultiple (hg : 0 ≤ g) (hd : 0 ≤ d) (h : IsMultiple g d) (h' : IsMultiple d g) :
    g = d := by
  obtain ⟨k, hk⟩ := h
  obtain ⟨j, hj⟩ := h'
  rcases hg.eq_or_lt with rfl | hpos
  · rw [hj, mul_zero]
  · have hdpos : 0 < d := hd.lt_of_ne fun h0 => hpos.ne' (by rw [hk, ← h0, mul_zero])
    have hk0 : 0 < k := by
      have := pos_of_mul_pos_left (hk ▸ hpos) hd
      exact_mod_cast this
    have hj0 : 0 < j := by
      have := pos_of_mul_pos_left (hj ▸ hdpos) hg
      exact_mod_cast this
    -- the two factors are positive integers that undo each other
    have hone : k * j = 1 := by
      have : ((k * j : Int) : ℚ) * g = 1 * g := by
        rw [Int.cast_mul, mul_assoc, ← hj, ← hk, one_mul]
      exact_mod_cast mul_right_cancel₀ hpos.ne' this
    have : k = 1 := by nlinarith
    rw [hk, this, Int.cast_one, one_mul]

/-- Positive ratios with the same exponents are the same. -/
theorem eq_iff_padicValRat (hg : 0 < g) (hd : 0 < d) :
    g = d ↔ ∀ p : Nat, p.Prime → padicValRat p g = padicValRat p d := by
  refine ⟨fun h p _ => by rw [h], fun h => eq_of_isMultiple hg.le hd.le ?_ ?_⟩
  · exact (isMultiple_iff hg.ne' hd.ne').mpr fun p hp => (h p hp).ge
  · exact (isMultiple_iff hd.ne' hg.ne').mpr fun p hp => (h p hp).le

theorem IsGcd.unique (hg : 0 ≤ g) (hd : 0 ≤ d) (h : IsGcd g x y) (h' : IsGcd d x y) : g = d :=
  eq_of_isMultiple hg hd (h.greatest d h'.left h'.right) (h'.greatest g h.left h.right)

theorem IsLcm.unique (hl : 0 ≤ l) (hd : 0 ≤ d) (h : IsLcm l x y) (h' : IsLcm d x y) : l = d :=
  eq_of_isMultiple hl hd (h'.least l h.left h.right) (h.least d h'.left h'.right)

/-! ### Divisors and multiples by numerators and denominators -/

theorem gcd_eq_div (x y : ℚ) : Ratio.gcd x y = (x.num.gcd y.num : ℚ) / (x.den.lcm y.den : Nat) := by
  rw [Ratio.gcd, Rat.mkRat_eq_div]
  rfl

theorem lcm_eq_div (x y : ℚ) : Ratio.lcm x y = (x.num.lcm y.num : ℚ) / (x.den.gcd y.den : Nat) := by
  rw [Ratio.lcm, Rat.mkRat_eq_div]
  rfl

theorem gcd_nonneg (x y : ℚ) : 0 ≤ Ratio.gcd x y := by
  rw [gcd_eq_div]
  positivity

theorem lcm_nonneg (x y : ℚ) : 0 ≤ Ratio.lcm x y := by
  rw [lcm_eq_div]
  positivity

theorem gcd_eq_zero_iff : Ratio.gcd x y = 0 ↔ x = 0 ∧ y = 0 := by
  have hden : ((x.den.lcm y.den : Nat) : ℚ) ≠ 0 := by
    exact_mod_cast Nat.lcm_ne_zero x.den_ne_zero y.den_ne_zero
  rw [gcd_eq_div, div_eq_zero_iff, or_iff_left hden, Nat.cast_eq_zero, Int.gcd_eq_zero_iff,
    Rat.num_eq_zero, Rat.num_eq_zero]

theorem lcm_eq_zero_iff : Ratio.lcm x y = 0 ↔ x = 0 ∨ y = 0 := by
  have hden : ((x.den.gcd y.den : Nat) : ℚ) ≠ 0 := by
    exact_mod_cast Nat.gcd_ne_zero_left x.den_ne_zero
  rw [lcm_eq_div, div_eq_zero_iff, or_iff_left hden, Nat.cast_eq_zero, Int.lcm_eq_zero_iff,
    Rat.num_eq_zero, Rat.num_eq_zero]

theorem gcd_zero_left (y : ℚ) : Ratio.gcd 0 y = |y| := by
  rw [gcd_eq_div, Rat.num_zero, Rat.den_zero, Int.gcd_zero_left, Nat.lcm_one_left, Nat.cast_natAbs,
    Int.cast_abs, ← Nat.abs_cast y.den, ← abs_div, Rat.num_div_den]

theorem gcd_comm (x y : ℚ) : Ratio.gcd x y = Ratio.gcd y x := by
  rw [Ratio.gcd, Ratio.gcd, Int.gcd_comm, Nat.lcm_comm]

theorem padicValNat_gcd (hp : p.Prime) {m n : Nat} (hm : m ≠ 0) (hn : n ≠ 0) :
    padicValNat p (m.gcd n) = min (padicValNat p m) (padicValNat p n) := by
  rw [← Nat.factorization_def _ hp, ← Nat.factorization_def _ hp, ← Nat.factorization_def _ hp,
    Nat.factorization_gcd hm hn]
  rfl

theorem padicValNat_lcm (hp : p.Prime) {m n : Nat} (hm : m ≠ 0) (hn : n ≠ 0) :
    padicValNat p (m.lcm n) = max (padicValNat p m) (padicValNat p n) := by
  rw [← Nat.factorization_def _ hp, ← Nat.factorization_def _ hp, ← Nat.factorization_def _ hp,
    Nat.factorization_lcm hm hn]
  rfl

section
variable (hp : p.Prime) (hx : x ≠ 0) (hy : y ≠ 0)
include hp hx hy

/-- A prime has in a common divisor the smaller of its exponents. -/
theorem padicValRat_gcd :
    padicValRat p (Ratio.gcd x y) = min (padicValRat p x) (padicValRat p y) := by
  have := Fact.mk hp
  have hnumx := Int.natAbs_ne_zero.mpr (Rat.num_ne_zero.mpr hx)
  have hnumy := Int.natAbs_ne_zero.mpr (Rat.num_ne_zero.mpr hy)
  have hnum : ((x.num.gcd y.num : Nat) : ℚ) ≠ 0 := by exact_mod_cast Nat.gcd_ne_zero_left hnumx
  have hden : ((x.den.lcm y.den : Nat) : ℚ) ≠ 0 := by
    exact_mod_cast Nat.lcm_ne_zero x.den_ne_zero y.den_ne_zero
  -- in lowest terms a prime is on one side of each ratio only, which leaves four cases
  have hoverx := padicValNat_num_or_den hp x
  have hovery := padicValNat_num_or_den hp y
  rw [gcd_eq_div, padicValRat.div hnum hden, padicValRat.of_nat, padicValRat.of_nat, Int.gcd,
    padicValNat_gcd hp hnumx hnumy, padicValNat_lcm hp x.den_ne_zero y.den_ne_zero,
    padicValRat_def, padicValRat_def, padicValInt, padicValInt]
  omega

/-- A prime has in a common multiple the larger of its exponents. -/
theorem padicValRat_lcm :
    padicValRat p (Ratio.lcm x y) = max (padicValRat p x) (padicValRat p y) := by
  have := Fact.mk hp
  have hnumx := Int.natAbs_ne_zero.mpr (Rat.num_ne_zero.mpr hx)
  have hnumy := Int.natAbs_ne_zero.mpr (Rat.num_ne_zero.mpr hy)
  have hnum : ((x.num.lcm y.num : Nat) : ℚ) ≠ 0 := by exact_mod_cast Nat.lcm_ne_zero hnumx hnumy
  have hden : ((x.den.gcd y.den : Nat) : ℚ) ≠ 0 := by
    exact_mod_cast Nat.gcd_ne_zero_left x.den_ne_zero
  have hoverx := padicValNat_num_or_den hp x
  have hovery := padicValNat_num_or_den hp y
  rw [lcm_eq_div, padicValRat.div hnum hden, padicValRat.of_nat, padicValRat.of_nat, Int.lcm,
    padicValNat_lcm hp hnumx hnumy, padicValNat_gcd hp x.den_ne_zero y.den_ne_zero,
    padicValRat_def, padicValRat_def, padicValInt, padicValInt]
  omega

end

/-! ### The universal properties by exponents -/

theorem isGcd_comm : IsGcd g x y ↔ IsGcd g y x :=
  ⟨fun h => ⟨h.right, h.left, fun d hy hx => h.greatest d hx hy⟩,
    fun h => ⟨h.right, h.left, fun d hx hy => h.greatest d hy hx⟩⟩

/-- The smaller exponents are those of a greatest common divisor. -/
theorem isGcd_of_padicValRat (hx : x ≠ 0) (hy : y ≠ 0) (hg : g ≠ 0)
    (h : ∀ p : Nat, p.Prime → padicValRat p g = min (padicValRat p x) (padicValRat p y)) :
    IsGcd g x y := by
  refine ⟨(isMultiple_iff hx hg).mpr fun p hp => ?_, (isMultiple_iff hy hg).mpr fun p hp => ?_,
    fun d hdx hdy => ?_⟩
  · exact (h p hp).trans_le (min_le_left _ _)
  · exact (h p hp).trans_le (min_le_right _ _)
  · have hd : d ≠ 0 := fun h0 => hx (isMultiple_zero_right_iff.mp (h0 ▸ hdx))
    refine (isMultiple_iff hg hd).mpr fun p hp => ?_
    rw [h p hp]
    exact le_min ((isMultiple_iff hx hd).mp hdx p hp) ((isMultiple_iff hy hd).mp hdy p hp)

/-- The larger exponents are those of a least common multiple. -/
theorem isLcm_of_padicValRat (hx : x ≠ 0) (hy : y ≠ 0) (hl : l ≠ 0)
    (h : ∀ p : Nat, p.Prime → padicValRat p l = max (padicValRat p x) (padicValRat p y)) :
    IsLcm l x y := by
  refine ⟨(isMultiple_iff hl hx).mpr fun p hp => ?_, (isMultiple_iff hl hy).mpr fun p hp => ?_,
    fun m hmx hmy => ?_⟩
  · exact (le_max_left _ _).trans_eq (h p hp).symm
  · exact (le_max_right _ _).trans_eq (h p hp).symm
  · rcases eq_or_ne m 0 with rfl | hm
    · exact isMultiple_zero l
    · refine (isMultiple_iff hm hl).mpr fun p hp => ?_
      rw [h p hp]
      exact max_le ((isMultiple_iff hm hx).mp hmx p hp) ((isMultiple_iff hm hy).mp hmy p hp)

/-- Zero is a multiple of everything, so that a greatest common divisor with it is the other ratio
up to sign. -/
theorem isGcd_zero_left_iff : IsGcd g 0 y ↔ IsMultiple y g ∧ IsMultiple g y :=
  ⟨fun h => ⟨h.right, h.greatest y (isMultiple_zero y) ⟨1, by rw [Int.cast_one, one_mul]⟩⟩,
    fun h => ⟨isMultiple_zero g, h.1, fun _ _ hd => h.2.trans hd⟩⟩

theorem isLcm_zero (h : x = 0 ∨ y = 0) : IsLcm 0 x y := by
  refine ⟨isMultiple_zero x, isMultiple_zero y, fun m hmx hmy => ?_⟩
  rcases h with rfl | rfl
  · exact hmx
  · exact hmy

end Intonation.Ratio
