import Intonation.Proofs.Monzo.Bounds
import Intonation.Proofs.Double.Whole
import Intonation.Proofs.Prime.Size

/-!
# Powers of primes within the bounds

An exponent is bounded by the size in cents that its prime power has in doubles, a residual by its
number of bits. The second bound implies the first: under the default bounds, a prime power of the
table with no more bits than a residual may have is no larger in cents than an exponent allows.

Sizes in octaves fall short of logarithms by less than a digit, since every digit is taken off a
number that is rounded down. The powers of the primes of the table below the bound all stay a 4096th
part below it, which is more than all the rounding.

## Main statements

* `Ratio.octaves_spec`: the digits of a size are those of a logarithm
* `Prime.mul_octaves_le`: a power below a bound by some margin, in octaves
* `Prime.within_of_pow_lt`: a power of few bits is within the bound in cents
-/

namespace Intonation

namespace Ratio

/-! ## Digits of a logarithm -/

theorem fixedMul_mul_le (x y : Nat) : fixedMul x y * 2 ^ fixedPlaces ≤ x * y := by
  rw [fixedMul, Nat.shiftRight_eq_div_pow]
  exact Nat.div_mul_le_self _ _

theorem le_fixedMul {x y : Nat} (hx : 2 ^ fixedPlaces ≤ x) (hy : 2 ^ fixedPlaces ≤ y) :
    2 ^ fixedPlaces ≤ fixedMul x y := by
  rw [fixedMul, Nat.shiftRight_eq_div_pow, Nat.le_div_iff_mul_le (Nat.two_pow_pos _)]
  exact Nat.mul_le_mul hx hy

theorem le_fixedTenth {x : Nat} (hx : 2 ^ fixedPlaces ≤ x) : 2 ^ fixedPlaces ≤ fixedTenth x := by
  have hsquare := le_fixedMul hx hx
  have hfourth := le_fixedMul hsquare hsquare
  exact le_fixedMul (le_fixedMul hfourth hfourth) hsquare

/-- The tenth power is rounded down. -/
theorem fixedTenth_mul_le (x : Nat) : fixedTenth x * (2 ^ fixedPlaces) ^ 9 ≤ x ^ 10 := by
  have hsquare := fixedMul_mul_le x x
  have hfourth := fixedMul_mul_le (fixedMul x x) (fixedMul x x)
  have heighth := fixedMul_mul_le (fixedMul (fixedMul x x) (fixedMul x x))
    (fixedMul (fixedMul x x) (fixedMul x x))
  have htenth := fixedMul_mul_le (fixedMul (fixedMul (fixedMul x x) (fixedMul x x))
    (fixedMul (fixedMul x x) (fixedMul x x))) (fixedMul x x)
  show fixedMul (fixedMul (fixedMul (fixedMul x x) (fixedMul x x))
    (fixedMul (fixedMul x x) (fixedMul x x))) (fixedMul x x) * _ ≤ _
  generalize fixedMul (fixedMul (fixedMul (fixedMul x x) (fixedMul x x))
    (fixedMul (fixedMul x x) (fixedMul x x))) (fixedMul x x) = tenth at *
  generalize fixedMul (fixedMul (fixedMul x x) (fixedMul x x))
    (fixedMul (fixedMul x x) (fixedMul x x)) = eighth at *
  generalize fixedMul (fixedMul x x) (fixedMul x x) = fourth at *
  generalize fixedMul x x = square at *
  generalize 2 ^ fixedPlaces = scale at *
  calc tenth * scale ^ 9 = tenth * scale * scale ^ 8 := by ring
    _ ≤ eighth * square * scale ^ 8 := by gcongr
    _ = eighth * scale * square * scale ^ 7 := by ring
    _ ≤ fourth * fourth * square * scale ^ 7 := by gcongr
    _ = (fourth * scale) * (fourth * scale) * square * scale ^ 5 := by ring
    _ ≤ (square * square) * (square * square) * square * scale ^ 5 := by gcongr
    _ = (square * scale) ^ 5 := by ring
    _ ≤ (x * x) ^ 5 := by gcongr
    _ = x ^ 10 := by ring

/-- Digits appended to a logarithm do not exceed it. -/
theorem two_pow_octaveDigits_le (count : Nat) {x : Nat} (hx : 2 ^ fixedPlaces ≤ x)
    (digits : Nat) : 2 ^ octaveDigits count x digits * (2 ^ fixedPlaces) ^ 10 ^ count ≤
      (2 ^ digits * x) ^ 10 ^ count := by
  induction count generalizing x digits with
  | zero =>
    rw [octaveDigits, pow_zero, pow_one, pow_one]
    gcongr
  | succ count ih =>
    rw [octaveDigits]
    have hpower := le_fixedTenth hx
    have htenth := fixedTenth_mul_le x
    generalize fixedTenth x = power at hpower htenth
    have hplaces : fixedPlaces ≤ power.log2 :=
      (Nat.le_log2 (by have := Nat.two_pow_pos fixedPlaces; omega)).mpr hpower
    have hnext : 2 ^ fixedPlaces ≤ power >>> (power.log2 - fixedPlaces) := by
      rw [Nat.shiftRight_eq_div_pow, Nat.le_div_iff_mul_le (Nat.two_pow_pos _), ← pow_add,
        Nat.add_sub_cancel' hplaces]
      exact Nat.log2_self_le (by have := Nat.two_pow_pos fixedPlaces; omega)
    have hshift : 2 ^ (power.log2 - fixedPlaces) * power >>> (power.log2 - fixedPlaces) ≤ power := by
      rw [Nat.shiftRight_eq_div_pow]
      exact Nat.mul_div_le _ _
    -- one more digit: the whole octaves of the tenth power, with the rest of it carried on
    have hrest := ih hnext (10 * digits + (power.log2 - fixedPlaces))
    generalize octaveDigits count _ _ = result at hrest ⊢
    generalize power >>> (power.log2 - fixedPlaces) = next at hshift hrest
    generalize power.log2 - fixedPlaces = digit at hshift hrest
    generalize 2 ^ fixedPlaces = scale at htenth hrest ⊢
    calc 2 ^ result * scale ^ 10 ^ (count + 1)
        = 2 ^ result * scale ^ 10 ^ count * (scale ^ 9) ^ 10 ^ count := by
          rw [mul_assoc, ← mul_pow, ← pow_succ', ← pow_mul, pow_succ' 10 count]
      _ ≤ (2 ^ (10 * digits + digit) * next) ^ 10 ^ count * (scale ^ 9) ^ 10 ^ count := by gcongr
      _ = (2 ^ (10 * digits) * (2 ^ digit * next) * scale ^ 9) ^ 10 ^ count := by
          rw [← mul_pow, pow_add, mul_assoc (2 ^ (10 * digits))]
      _ ≤ (2 ^ (10 * digits) * (power * scale ^ 9)) ^ 10 ^ count := by
          rw [mul_assoc (2 ^ (10 * digits))]
          gcongr
      _ ≤ (2 ^ (10 * digits) * x ^ 10) ^ 10 ^ count := by gcongr
      _ = (2 ^ digits * x) ^ 10 ^ (count + 1) := by
          rw [mul_comm 10 digits, pow_mul, ← mul_pow, ← pow_mul, pow_succ' 10 count]

/-- A size in octaves is one more in the last place than digits that do not exceed the
logarithm. -/
theorem octaves_spec {n : Nat} (hn : 0 < n) : ∃ digits places : Nat, places = 10 ^ 18 ∧
    octaves n = (digits + 1) / places ∧ 2 ^ digits ≤ n ^ places := by
  have hfloor : (n : ℚ).floor.toNat = n := by
    rw [Rat.floor_def, Rat.num_natCast, Rat.den_natCast, Nat.cast_one, Int.ediv_one,
      Int.toNat_natCast]
  have hterms : (n : ℚ).num.natAbs <<< fixedPlaces / (n : ℚ).den = n * 2 ^ fixedPlaces := by
    rw [Rat.num_natCast, Rat.den_natCast, Int.natAbs_natCast, Nat.div_one, Nat.shiftLeft_eq]
  have hrest : 2 ^ fixedPlaces ≤ (n * 2 ^ fixedPlaces) >>> n.log2 := by
    rw [Nat.shiftRight_eq_div_pow, Nat.le_div_iff_mul_le (Nat.two_pow_pos _), mul_comm]
    exact Nat.mul_le_mul_right _ (Nat.log2_self_le hn.ne')
  have hwhole : 2 ^ n.log2 * (n * 2 ^ fixedPlaces) >>> n.log2 ≤ n * 2 ^ fixedPlaces := by
    rw [Nat.shiftRight_eq_div_pow]
    exact Nat.mul_div_le _ _
  -- the number of places stays a variable, so that no power with it is ever evaluated
  obtain ⟨count, hcount⟩ : ∃ count, count = 18 := ⟨18, rfl⟩
  have hdigits := two_pow_octaveDigits_le count hrest n.log2
  refine ⟨octaveDigits count ((n * 2 ^ fixedPlaces) >>> n.log2) n.log2, 10 ^ count,
    by rw [hcount], ?_, ?_⟩
  · rw [octaves, hfloor, hterms, ← hcount]
    generalize octaveDigits count _ _ = digits
    rw [Rat.mkRat_eq_div, hcount]
    norm_num
  · generalize 10 ^ count = places at hdigits ⊢
    have hscale : 0 < (2 ^ fixedPlaces) ^ places := Nat.pow_pos (Nat.two_pow_pos _)
    refine Nat.le_of_mul_le_mul_right (hdigits.trans ?_) hscale
    rw [← mul_pow]
    exact Nat.pow_le_pow_left hwhole _

end Ratio

namespace Prime
open Double

variable {p e bits : Nat}

/-! ## Powers below a bound -/

/-- A larger number has at least twice the power, when the exponent is the number. -/
theorem two_mul_pow_self_le {n m : Nat} (hn : 0 < n) (hlt : n < m) : 2 * n ^ n ≤ m ^ n := by
  have hn' : (0 : ℚ) < n := by exact_mod_cast hn
  have hbernoulli := one_add_mul_le_pow (a := (1 / n : ℚ)) (by linarith [one_div_pos.mpr hn']) n
  rw [mul_one_div_cancel hn'.ne', one_add_div hn'.ne', div_pow, le_div_iff₀ (pow_pos hn' n)]
    at hbernoulli
  have hgrown : ((2 * n ^ n : Nat) : ℚ) ≤ ((n + 1) ^ n : Nat) := by
    push_cast
    linarith
  calc 2 * n ^ n ≤ (n + 1) ^ n := by exact_mod_cast hgrown
    _ ≤ m ^ n := Nat.pow_le_pow_left hlt n

/-- A power that stays some part below a bound stays below it in octaves. -/
theorem mul_octaves_le {n : Nat} (hn : 0 < n) (h : n ^ e * 4097 ≤ 2 ^ bits * 4096) :
    e * Ratio.octaves n ≤ bits - 1 / 4096 + e / 10 ^ 18 := by
  obtain ⟨digits, places, hplaces, hoctaves, hdigits⟩ := Ratio.octaves_spec hn
  obtain ⟨k, hk, hk0⟩ : ∃ k, 10 ^ 18 = 4096 * k ∧ 0 < k :=
    ⟨2 ^ 6 * 5 ^ 18, by norm_num, by norm_num⟩
  have hten : (10 : ℚ) ^ 18 = 4096 * k := by exact_mod_cast hk
  obtain rfl : places = 4096 * k := hplaces.trans hk
  have hmargin : 2 * 4096 ^ 4096 ≤ 4097 ^ 4096 := two_mul_pow_self_le (by norm_num) (by norm_num)
  have hpowers : 2 ^ (digits * e + k) ≤ 2 ^ (bits * (4096 * k)) := by
    have hscale : 0 < (4096 ^ 4096) ^ k := by positivity
    refine Nat.le_of_mul_le_mul_right ?_ hscale
    calc 2 ^ (digits * e + k) * (4096 ^ 4096) ^ k
        = (2 ^ digits) ^ e * (2 * 4096 ^ 4096) ^ k := by rw [pow_add, pow_mul, mul_pow, mul_assoc]
      _ ≤ (n ^ (4096 * k)) ^ e * (4097 ^ 4096) ^ k := by gcongr
      _ = (n ^ e * 4097) ^ (4096 * k) := by
        rw [mul_pow, ← pow_mul, ← pow_mul, ← pow_mul, mul_comm (4096 * k) e]
      _ ≤ (2 ^ bits * 4096) ^ (4096 * k) := by gcongr
      _ = 2 ^ (bits * (4096 * k)) * (4096 ^ 4096) ^ k := by rw [mul_pow, ← pow_mul 2, pow_mul 4096]
  have hsum : digits * e + k ≤ bits * (4096 * k) := (Nat.pow_le_pow_iff_right one_lt_two).mp hpowers
  have hk0' : (0 : ℚ) < k := by exact_mod_cast hk0
  have hsum' : (digits : ℚ) * e + k ≤ bits * (4096 * k) := by exact_mod_cast hsum
  rw [hoctaves, hten]
  push_cast
  calc (e : ℚ) * ((digits + 1) / (4096 * k)) = (digits * e + e) / (4096 * k) := by ring
    _ ≤ (bits * (4096 * k) - k + e) / (4096 * k) := by gcongr; linarith
    _ = bits - 1 / 4096 + e / (4096 * k) := by field_simp

/-- The largest exponent, from a given one downwards, with a power below a bound. -/
def topExponent (bound n : Nat) : Nat → Nat
  | 0 => 0
  | e + 1 => bif (Nat.pow n (e + 1)).blt bound then e + 1 else topExponent bound n e

theorem le_topExponent {bound n top : Nat} (h : n ^ e < bound) (hle : e ≤ top) :
    e ≤ topExponent bound n top := by
  induction top with
  | zero => exact hle
  | succ top ih =>
    rw [topExponent]
    cases hblt : (Nat.pow n (top + 1)).blt bound with
    | true => exact hle
    | false =>
      have hne : e ≠ top + 1 := by
        rintro rfl
        exact Bool.false_ne_true (hblt.symm.trans (Nat.blt_eq.mpr h))
      exact ih (by omega)

-- the operations are those of core, which the kernel computes with, for thousands of numbers
/-- The powers below a bound of the last numbers up to a limit stay some part below it. It is enough
to look at the largest power of each, and the exponents of these go down from number to number. -/
def clears (bound limit : Nat) : Nat → Nat → Bool
  | 0, _ => true
  | count + 1, top =>
    match topExponent bound (limit - count) top with
    | 0 => false
    | e + 1 =>
      (Nat.pow (limit - count) (e + 1) * 4097).ble (bound * 4096) && clears bound limit count (e + 1)

theorem mul_le_of_clears {bound limit count top : Nat} (h : clears bound limit count top)
    (htop : ∀ e, (limit + 1 - count) ^ e < bound → e ≤ top) {n : Nat} (hlo : limit < n + count)
    (hhi : n ≤ limit) (hn : 0 < n) (he : n ^ e < bound) : n ^ e * 4097 ≤ bound * 4096 := by
  induction count generalizing top with
  | zero => omega
  | succ count ih =>
    rw [Nat.add_sub_add_right] at htop
    rw [clears] at h
    split at h
    · cases h
    · next e' htop' =>
      rw [Bool.and_eq_true, Nat.ble_eq] at h
      obtain ⟨hclear, hrest⟩ := h
      have hle : ∀ e, (limit - count) ^ e < bound → e ≤ e' + 1 := fun e he =>
        (le_topExponent he (htop e he)).trans_eq htop'
      by_cases hfirst : n = limit - count
      · subst hfirst
        exact (Nat.mul_le_mul_right 4097 (Nat.pow_le_pow_right hn (hle e he))).trans hclear
      · refine ih hrest (fun e he => hle e ?_) (by omega)
        exact (Nat.pow_le_pow_left (by omega) e).trans_lt he

/-- No power of a number up to the largest prime of the table comes close to the default bound from
below. -/
theorem pow_mul_le (hp : p ∈ table) (h : p ^ e < 2 ^ ({} : Settings).absurdExponent) :
    p ^ e * 4097 ≤ 2 ^ ({} : Settings).absurdExponent * 4096 := by
  obtain ⟨hprime, hle⟩ := mem_table.mp hp
  have hclears : clears (2 ^ ({} : Settings).absurdExponent) tableLimit (tableLimit - 1)
      ({} : Settings).absurdExponent = true := by decide +kernel
  generalize ({} : Settings).absurdExponent = bound at *
  have hlo : 1 + (tableLimit - 1) < p + (tableLimit - 1) := Nat.add_lt_add_right hprime.one_lt _
  refine mul_le_of_clears hclears (fun e he => ?_) hlo hle hprime.pos h
  exact ((Nat.pow_lt_pow_iff_right one_lt_two).mp he).le

/-! ## Powers within the bound in cents -/

/-- A size in cents lies hardly above the size in octaves, although it is rounded twice. -/
theorem exists_cents (hp : p ∈ table) : ∃ w, cents p = ofWord w ∧ w < infinityBits ∧
    2 ^ 52 ≤ mantissaOf w ∧ ratioOf w ≤ 1200 * Ratio.octaves p + 1 / 2 ^ 20 := by
  obtain ⟨hlo, hhi⟩ := octaves_mem_table hp
  obtain ⟨hword, hone, hfinite⟩ := cents_eq_ofWord hlo (hhi.trans (by norm_num))
  have hbits := ratioBits_le_ratioBits one_pos hone
  have hfull : 2 ^ 52 ≤ ratioBits 1 := by decide
  refine ⟨_, hword, hfinite, le_mantissaOf (hfull.trans hbits), ?_⟩
  have hround := ratioOf_ratioBits_le_add (j := 32) (q := Ratio.octaves p) (by linarith)
    (by norm_num) (by norm_num; linarith)
  have hround' := ratioOf_ratioBits_le_add (j := 32)
    (q := 1200 * ratioOf (ratioBits (Ratio.octaves p))) (by linarith) (by norm_num)
    (by norm_num at hround ⊢; linarith)
  norm_num at hround hround' ⊢
  linarith

/-- A power of a prime of the table that has no more bits than the default bound is no larger in
cents than an exponent may be. -/
theorem within_of_pow_lt (hp : p ∈ table) (hbits : bits ≤ ({} : Settings).absurdExponent)
    (h : p ^ e < 2 ^ bits) : Within (cents p) (Monzo.centsBound {}) e := by
  have hprime := prime_of_mem_table hp
  rcases Nat.eq_zero_or_pos e with rfl | he
  · rw [Nat.cast_zero]
    exact .zero (isFull_cents hp) (Monzo.centsBound_nonneg {})
  have hbound : Monzo.centsBound {} = ((({} : Settings).absurdExponent * 9600 : Nat) : ℚ) / 8 := by
    rw [Monzo.centsBound]
    push_cast
    ring
  have hlarge : ({} : Settings).absurdExponent ≤ 3322 := le_rfl
  have hclear := pow_mul_le (e := e) hp
  rw [hbound]
  generalize ({} : Settings).absurdExponent = bound at *
  have hbelow : p ^ e < 2 ^ bound := h.trans_le (Nat.pow_le_pow_right two_pos hbits)
  have hexponent : e ≤ bound := ((Nat.pow_lt_pow_iff_right one_lt_two).mp
    ((Nat.pow_le_pow_left hprime.two_le e).trans_lt hbelow)).le
  have hoctaves := mul_octaves_le hprime.pos (hclear hbelow)
  have he' : (e : ℚ) ≤ 3322 := by exact_mod_cast hexponent.trans hlarge
  obtain ⟨w, hword, hfinite, hfull, hsize⟩ := exists_cents hp
  rw [hword]
  refine .of_mul_le hfinite hfull he (by omega) (by omega) ?_
  calc (e : ℚ) * ratioOf w ≤ e * (1200 * Ratio.octaves p + 1 / 2 ^ 20) := by gcongr
    _ = 1200 * (e * Ratio.octaves p) + e * (1 / 2 ^ 20) := by ring
    _ ≤ 1200 * (bound - 1 / 4096 + e / 10 ^ 18) + e * (1 / 2 ^ 20) := by gcongr
    _ ≤ ((bound * 9600 : Nat) : ℚ) / 8 := by
      push_cast
      linarith

end Prime

end Intonation
