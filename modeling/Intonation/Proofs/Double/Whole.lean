import Intonation.Proofs.Double.Product
import Intonation.Proofs.Ratio.Remainder

/-!
# Whole parts of nearest doubles

The double nearest to a ratio lies between any two doubles that the ratio lies between. Eighths
are doubles as long as they are not too large, and therefore the double nearest to a seventh has
the whole part of that seventh.

## Main statements

* `ratioOf_ratioBits_dyadic`: fractions whose denominator is a power of two are doubles
* `ratioOf_ratioBits_le_add`: the nearest double lies close above a ratio
* `Within.of_mul_le`: a product that does not exceed a bound
* `floorInt_of_ofRat?_seventh`: the whole part of a seventh
-/

namespace Intonation.Double

/-! ## Ratios that are doubles -/

/-- A fraction whose denominator is a power of two is a double when its numerator is short enough. -/
theorem ratioOf_ratioBits_dyadic {m j : Nat} (hpos : 0 < m) (hlt : m < 2 ^ 53) (hj : j ≤ 1000) :
    ratioOf (ratioBits ((m : ℚ) / 2 ^ j)) = m / 2 ^ j := by
  have hlog : m.log2 < 53 := (Nat.log2_lt hpos.ne').mpr hlt
  obtain ⟨k, hk⟩ : ∃ k, m.log2 + k = 52 := ⟨52 - m.log2, by omega⟩
  have hfull : 2 ^ 52 ≤ m * 2 ^ k := by
    rw [← hk, pow_add]
    exact Nat.mul_le_mul_right _ (Nat.log2_self_le hpos.ne')
  have hless : m * 2 ^ k < 2 ^ 53 := by
    have h1 : m < 2 ^ (m.log2 + 1) := Nat.lt_log2_self
    calc m * 2 ^ k < 2 ^ (m.log2 + 1) * 2 ^ k := Nat.mul_lt_mul_of_pos_right h1 (by positivity)
      _ = 2 ^ 53 := by rw [← pow_add, add_right_comm, hk]
  have hsize : (m : ℚ) / 2 ^ j = ((m * 2 ^ k : Nat) : ℚ) * 2 ^ (-(k : Int) - j) := by
    rw [zpow_sub₀ (by norm_num), zpow_neg, zpow_natCast, zpow_natCast]
    push_cast
    field_simp
  have hlog' : (m * 2 ^ k).log2 = 52 := log2_eq_of_bounds hfull hless
  have hexp : roundedExponent (m * 2 ^ k) (-(k : Int) - j) = -(k : Int) - j := by
    rw [roundedExponent, hlog']
    omega
  have hunits : roundedUnits (m * 2 ^ k) (-(k : Int) - j) = m * 2 ^ k := by
    rw [roundedUnits, hexp, sub_self, Int.toNat_zero, pow_zero, roundDiv_one]
  have hword := word_roundedUnits (e := -(k : Int) - j) hfull
  rw [hexp, hunits] at hword
  rw [hsize, ← hword]
  exact ratioOf_word ⟨by omega, hless, by omega, .inl hfull⟩

theorem ratioOf_ratioBits_natCast {m : Nat} (hpos : 0 < m) (hlt : m < 2 ^ 53) :
    ratioOf (ratioBits m) = m := by
  have h := ratioOf_ratioBits_dyadic (j := 0) hpos hlt (Nat.zero_le _)
  rwa [pow_zero, div_one] at h

theorem ratioOf_ratioBits_eighth {m : Nat} (hpos : 0 < m) (hlt : m < 2 ^ 53) :
    ratioOf (ratioBits ((m : ℚ) / 8)) = m / 8 := by
  have h := ratioOf_ratioBits_dyadic (j := 3) hpos hlt (by norm_num)
  norm_num at h
  exact h

/-- The nearest double lies above a ratio by no more than one unit in a binary place that the
double has. -/
theorem ratioOf_ratioBits_le_add {j : Nat} {q : ℚ} (hq : 0 < q) (hj : j ≤ 1000)
    (hlt : q * 2 ^ j + 1 < 2 ^ 53) : ratioOf (ratioBits q) ≤ q + 1 / 2 ^ j := by
  have hpow : (0 : ℚ) < 2 ^ j := by positivity
  have hceil : ((⌈q * 2 ^ j⌉₊ : Nat) : ℚ) < q * 2 ^ j + 1 := Nat.ceil_lt_add_one (by positivity)
  have hpos : 0 < ⌈q * 2 ^ j⌉₊ := Nat.ceil_pos.mpr (by positivity)
  have hshort : ⌈q * 2 ^ j⌉₊ < 2 ^ 53 := by exact_mod_cast hceil.trans hlt
  have hle : q ≤ (⌈q * 2 ^ j⌉₊ : ℚ) / 2 ^ j := (le_div_iff₀ hpow).mpr (Nat.le_ceil _)
  calc ratioOf (ratioBits q) ≤ ratioOf (ratioBits ((⌈q * 2 ^ j⌉₊ : ℚ) / 2 ^ j)) :=
        ratioOf_le_ratioOf (ratioBits_le_ratioBits hq hle)
    _ = (⌈q * 2 ^ j⌉₊ : ℚ) / 2 ^ j := ratioOf_ratioBits_dyadic hpos hshort hj
    _ ≤ (q * 2 ^ j + 1) / 2 ^ j := (div_le_div_iff_of_pos_right hpow).mpr hceil.le
    _ = q + 1 / 2 ^ j := by rw [add_div, mul_div_cancel_right₀ q hpow.ne']

/-- The nearest double lies between the eighths that a ratio lies between. -/
theorem le_ratioOf_of_eighth {m : Nat} {q : ℚ} (hlt : m < 2 ^ 53) (h : (m : ℚ) / 8 ≤ q) :
    (m : ℚ) / 8 ≤ ratioOf (ratioBits q) := by
  rcases Nat.eq_zero_or_pos m with rfl | hpos
  · simpa using ratioOf_nonneg _
  · rw [← ratioOf_ratioBits_eighth hpos hlt]
    have hpos' : (0 : ℚ) < (m : ℚ) / 8 := by positivity
    exact ratioOf_le_ratioOf (ratioBits_le_ratioBits hpos' h)

theorem ratioOf_le_of_eighth {m : Nat} {q : ℚ} (hlt : m < 2 ^ 53) (hq : 0 < q)
    (h : q ≤ (m : ℚ) / 8) : ratioOf (ratioBits q) ≤ (m : ℚ) / 8 := by
  have hpos : 0 < m := by
    by_contra h0
    rw [show m = 0 by omega, Nat.cast_zero, zero_div] at h
    exact hq.not_ge h
  rw [← ratioOf_ratioBits_eighth hpos hlt]
  exact ratioOf_le_ratioOf (ratioBits_le_ratioBits hq h)

/-- A whole number scaled by a size that is a double is within the bound that the product is. -/
theorem Within.of_mul_le {w e m : Nat} (hw : w < infinityBits) (hfull : 2 ^ 52 ≤ mantissaOf w)
    (he : 0 < e) (hshort : e < 2 ^ 53) (hm : m < 2 ^ 53) (h : e * ratioOf w ≤ (m : ℚ) / 8) :
    Within (ofWord w) (m / 8) e := by
  have htop : ratioBits (2 ^ 53) < infinityBits := by decide +kernel
  have he0 : (0 : ℚ) < e := by exact_mod_cast he
  have hexact := ratioOf_ratioBits_natCast he hshort
  have hterm : ratioBits e < infinityBits :=
    (ratioBits_le_ratioBits he0 (by exact_mod_cast hshort.le)).trans_lt htop
  have hterm0 : 0 < ratioBits e := by
    by_contra h0
    rw [show ratioBits e = 0 by omega] at hexact
    norm_num [ratioOf, mantissaOf] at hexact
    exact he0.ne hexact
  have hsize : 0 < ratioOf w := by
    have hmantissa : 0 < mantissaOf w := lt_of_lt_of_le (by norm_num) hfull
    rw [ratioOf]
    positivity
  have hproduct : ratioBits (e * ratioOf w) < infinityBits := by
    refine (ratioBits_le_ratioBits (mul_pos he0 hsize) (h.trans ?_)).trans_lt htop
    have hm' : (m : ℚ) ≤ 2 ^ 53 := by exact_mod_cast hm.le
    have hm0 : (0 : ℚ) ≤ m := Nat.cast_nonneg m
    linarith
  refine ⟨ofWord (ratioBits e), by rw [ofRat?_of_pos he0, if_neg (not_le.mpr hterm)]; rfl, ?_⟩
  rw [ofWord_mul hterm0 hterm hfull hw, hexact, min_eq_left hproduct.le, Bool.eq_false_iff, ne_eq,
    exceeds_ofWord hproduct.le, not_or, not_lt]
  exact ⟨hproduct.ne, ratioOf_le_of_eighth hm (mul_pos he0 hsize) h⟩

/-! ## Negative ratios -/

theorem toRat?_ofBits_negative {w : Nat} (hw : w < infinityBits) :
    toRat? (Float.ofBits (UInt64.ofNat (1 <<< 63 + w))) = some (-ratioOf w) := by
  have hpos := toRat?_ofBits hw
  have hbits := toBits_ofBits hw
  have hbits' := toBits_ofBits_negative hw
  unfold toRat? finite? at hpos ⊢
  rw [hbits] at hpos
  rw [hbits']
  rw [infinityBits_eq] at hw
  simp only [Nat.shiftLeft_eq, Nat.shiftRight_eq_div_pow] at hpos ⊢
  have hfield : (1 * 2 ^ 63 + w) / 2 ^ 52 % (1 * 2 ^ 11) = w / 2 ^ 52 % (1 * 2 ^ 11) := by omega
  have hfraction : (1 * 2 ^ 63 + w) % (1 * 2 ^ 52) = w % (1 * 2 ^ 52) := by omega
  have hsign : decide (1 * 2 ^ 63 ≤ w) = false := decide_eq_false (by omega)
  have hsign' : decide (1 * 2 ^ 63 ≤ 1 * 2 ^ 63 + w) = true := decide_eq_true (by omega)
  rw [hsign] at hpos
  rw [hfield, hfraction, hsign']
  split
  · next h =>
    rw [if_pos h] at hpos
    cases hpos
  · next h =>
    rw [if_neg h] at hpos
    split
    · next h0 =>
      rw [if_pos h0] at hpos
      simpa [Finite.toRat] using hpos
    · next h0 =>
      rw [if_neg h0] at hpos
      simpa [Finite.toRat] using hpos

/-- The ratio of the double nearest to a negative ratio. -/
theorem toRat?_of_ofRat?_neg {q : ℚ} {x : Float} (hq : q < 0) (h : ofRat? q = some x) :
    toRat? x = some (-ratioOf (ratioBits (-q))) := by
  have hbits : quotientBits q.num.natAbs q.den = ratioBits (-q) := by
    rw [ratioBits, Rat.num_neg_eq_neg_num, Int.natAbs_neg, Rat.den_neg_eq_den]
  unfold ofRat? at h
  rw [if_neg hq.ne] at h
  simp only [hbits, if_pos hq, Option.ite_none_left_eq_some, Option.some.injEq, not_le] at h
  obtain ⟨hlt, rfl⟩ := h
  exact toRat?_ofBits_negative hlt

theorem toRat?_of_ofRat?_pos {q : ℚ} {x : Float} (hq : 0 < q) (h : ofRat? q = some x) :
    toRat? x = some (ratioOf (ratioBits q)) := by
  rw [ofRat?_of_pos hq] at h
  simp only [Option.ite_none_left_eq_some, Option.some.injEq, not_le] at h
  obtain ⟨hlt, rfl⟩ := h
  exact toRat?_ofBits hlt

/-! ## Sevenths -/

section
variable {steps : Int} {x : Float}

/-- A seventh lies between its whole part and six sevenths above it. -/
theorem seventh_mem (steps : Int) : ((steps / 7 : Int) : ℚ) ≤ steps / 7 ∧
    (steps : ℚ) / 7 ≤ (steps / 7 : Int) + 6 / 7 := by
  have hsplit : (7 : ℚ) * (steps / 7 : Int) + (steps % 7 : Int) = steps := by
    exact_mod_cast Int.mul_ediv_add_emod steps 7
  have hrest : ((steps % 7 : Int) : ℚ) ≤ 6 := by
    exact_mod_cast (by omega : steps % 7 ≤ 6)
  have hrest0 : (0 : ℚ) ≤ (steps % 7 : Int) := by
    exact_mod_cast Int.emod_nonneg steps (by norm_num)
  constructor <;> linarith

theorem floorInt_of_ofRat?_seventh_pos (h0 : 0 < steps) (h2 : steps < 2 ^ 50)
    (h : ofRat? ((steps : ℚ) / 7) = some x) : floorInt x = steps / 7 := by
  obtain ⟨hlow, hhigh⟩ := seventh_mem steps
  obtain ⟨n, hn⟩ := Int.eq_ofNat_of_zero_le (by omega : 0 ≤ steps / 7)
  have hfloor : ((steps / 7 : Int) : ℚ) = n := by
    rw [hn]
    rfl
  have hpos : 0 < (steps : ℚ) / 7 := by
    have : (0 : ℚ) < steps := by exact_mod_cast h0
    linarith
  have hlo := @le_ratioOf_of_eighth (8 * n) ((steps : ℚ) / 7) (by omega) (by
    push_cast
    linarith)
  have hhi := @ratioOf_le_of_eighth (8 * n + 7) ((steps : ℚ) / 7) (by omega) hpos (by
    push_cast
    linarith)
  push_cast at hlo hhi
  rw [floorInt, floorInt?, toRat?_of_ofRat?_pos hpos h, Option.map_some, Option.getD_some,
    Ratio.floor_eq_iff, hfloor]
  constructor <;> linarith

/-- Below zero, the opposite lies between one eighth above a whole number and the next one. -/
theorem floorInt_of_ofRat?_seventh_neg (h0 : steps < 0) (h1 : -2 ^ 50 < steps)
    (h : ofRat? ((steps : ℚ) / 7) = some x) : floorInt x = steps / 7 := by
  obtain ⟨hlow, hhigh⟩ := seventh_mem steps
  obtain ⟨n, hn⟩ := Int.eq_ofNat_of_zero_le (by omega : 0 ≤ -(steps / 7) - 1)
  have hfloor : ((steps / 7 : Int) : ℚ) = -(n + 1) := by
    rw [show steps / 7 = -((n : Int) + 1) by omega]
    push_cast
    ring
  have hneg : (steps : ℚ) / 7 < 0 := by
    have : (steps : ℚ) < 0 := by exact_mod_cast h0
    linarith
  have hlo := @le_ratioOf_of_eighth (8 * n + 1) (-((steps : ℚ) / 7)) (by omega) (by
    push_cast
    linarith)
  have hhi := @ratioOf_le_of_eighth (8 * n + 8) (-((steps : ℚ) / 7)) (by omega) (by linarith) (by
    push_cast
    linarith)
  push_cast at hlo hhi
  rw [floorInt, floorInt?, toRat?_of_ofRat?_neg hneg h, Option.map_some, Option.getD_some,
    Ratio.floor_eq_iff, hfloor]
  constructor <;> linarith

/-- The double nearest to a seventh has the whole part of that seventh. -/
theorem floorInt_of_ofRat?_seventh (h1 : -2 ^ 50 < steps) (h2 : steps < 2 ^ 50)
    (h : ofRat? (mkRat steps 7) = some x) : floorInt x = steps / 7 := by
  have hq : mkRat steps 7 = (steps : ℚ) / 7 := by
    rw [Rat.mkRat_eq_div]
    norm_num
  rw [hq] at h
  rcases lt_trichotomy steps 0 with hneg | rfl | hpos
  · exact floorInt_of_ofRat?_seventh_neg hneg h1 h
  · rw [Int.cast_zero, zero_div, ofRat?_zero, Option.some.injEq] at h
    subst h
    exact floorInt_of_beq_zero zero_beq_zero
  · exact floorInt_of_ofRat?_seventh_pos hpos h2 h

end

end Intonation.Double
