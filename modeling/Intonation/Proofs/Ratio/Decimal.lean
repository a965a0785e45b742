import Intonation.Literal.Algebra
import Intonation.Proofs.Prime.Factor

/-!
# Decimals denote the ratios they come from

A terminating ratio has a decimal with as many places as two or five divide its denominator. Its
digits, read back, denote the ratio, also when a zero is written after the point.

## Main statements

* `appendDigits?_of_isDigit`: reading decimal digits
* `ofDecimal_toRatio`: the decimal of a ratio denotes the ratio
* `exists_of_ofDecimal?`, `exists_of_ofCents?`: what spelled decimals and cents denote
-/

namespace Intonation

/-! ## Reading digits -/

namespace Text

theorem digitValue?_of_isDigit {c : Char} (h : c.isDigit) :
    digitValue? c = some (c.toNat - '0'.toNat) := by
  have h0 : '0'.toNat = 0x30 := rfl
  have hlo : 0x30 ≤ c.toNat := by
    simp only [Char.isDigit, Bool.and_eq_true, decide_eq_true_eq] at h
    exact h.1
  have hhi : c.toNat < 0x30 + 10 := by
    simp only [Char.isDigit, Bool.and_eq_true, decide_eq_true_eq] at h
    exact Nat.lt_succ_of_le h.2
  rw [digitValue?, zeroDigits, List.find?_cons_of_pos (by simp [hlo, hhi]), Option.map_some, h0]

/-- Digits of the Latin script are read as decimal digits. -/
theorem appendDigits?_of_isDigit {cs : List Char} (h : ∀ c ∈ cs, c.isDigit) (n : Nat) :
    appendDigits? n cs = some (10 ^ cs.length * n + Nat.ofDigitChars 10 cs 0) := by
  rw [← Nat.ofDigitChars_eq_ofDigitChars_zero]
  induction cs generalizing n with
  | nil => simp [appendDigits?]
  | cons c cs ih =>
    rw [appendDigits?, digitValue?_of_isDigit (h c List.mem_cons_self), Option.bind_some,
      ih fun c' hc' => h c' (List.mem_cons_of_mem _ hc'), Nat.ofDigitChars_cons]

end Text

/-! ## Writing digits -/

namespace Ratio

theorem toList_padded (width n : Nat) : (padded width n).toList =
    List.replicate (width - (Nat.toDigits 10 n).length) '0' ++ Nat.toDigits 10 n := by
  simp [padded, String.toList_append, Nat.repr_eq_ofList_toDigits]

theorem isDigit_of_mem_padded {width n : Nat} {c : Char} (h : c ∈ (padded width n).toList) :
    c.isDigit := by
  rw [toList_padded, List.mem_append] at h
  rcases h with h | h
  · rw [List.eq_of_mem_replicate h]
    rfl
  · exact Nat.isDigit_of_mem_toDigits (by norm_num) le_rfl h

theorem length_padded {width n : Nat} (hw : 0 < width) (hn : n < 10 ^ width) :
    (padded width n).toList.length = width := by
  have h : (Nat.toDigits 10 n).length ≤ width :=
    (Nat.length_toDigits_le_iff (by norm_num) hw).mpr hn
  rw [toList_padded, List.length_append, List.length_replicate]
  omega

theorem ofDigitChars_padded (width n : Nat) :
    Nat.ofDigitChars 10 (padded width n).toList 0 = n := by
  rw [toList_padded, Nat.ofDigitChars_append, Nat.ofDigitChars_replicate_zero, mul_zero,
    Nat.ofDigitChars_ten_toDigits]

/-- The denominator of a terminating ratio divides a power of ten. -/
theorem den_dvd_of_isDecimal {q : ℚ} (h : isDecimal q) : q.den ∣ 10 ^ places q := by
  have hone : (Prime.strip 5 (Prime.strip 2 q.den).1).1 = 1 := of_decide_eq_true h
  obtain ⟨h2, -⟩ := Prime.strip_spec (p := 2) le_rfl q.den_pos
  have hpos := Prime.strip_pos (p := 2) le_rfl q.den_pos
  obtain ⟨h5, -⟩ := Prime.strip_spec (p := 5) (by norm_num) hpos
  obtain ⟨h5', hndvd⟩ := Prime.strip_spec (p := 5) (n := q.den) (by norm_num) q.den_pos
  rw [hone, one_mul] at h5
  -- the fives of the denominator are those that are left after its twos
  have hfives : (Prime.strip 5 (Prime.strip 2 q.den).1).2 ≤ (Prime.strip 5 q.den).2 := by
    have hdvd : 5 ^ (Prime.strip 5 (Prime.strip 2 q.den).1).2 ∣
        (Prime.strip 5 q.den).1 * 5 ^ (Prime.strip 5 q.den).2 := by
      rw [h5, h5']
      exact ⟨_, h2.symm⟩
    have hcop : Nat.Coprime (5 ^ (Prime.strip 5 (Prime.strip 2 q.den).1).2)
        (Prime.strip 5 q.den).1 :=
      Nat.Coprime.pow_left _ ((Nat.Prime.coprime_iff_not_dvd (by norm_num)).mpr hndvd)
    exact (Nat.pow_dvd_pow_iff_le_right (by norm_num)).mp (hcop.dvd_of_dvd_mul_left hdvd)
  rw [places, show 10 = 2 * 5 from rfl, mul_pow]
  conv_lhs => rw [← h2, ← h5]
  rw [mul_comm]
  exact Nat.mul_dvd_mul (Nat.pow_dvd_pow _ (le_max_left _ _))
    (Nat.pow_dvd_pow _ (hfives.trans (le_max_right _ _)))

/-- The decimal places that write a ratio exactly make its denominator divide a power of ten. -/
theorem den_mul_pow_eq_one_iff {q : ℚ} {k : Nat} : (q * 10 ^ k).den = 1 ↔ q.den ∣ 10 ^ k := by
  constructor
  · intro h
    have hten : (10 : ℚ) ^ k ≠ 0 := by positivity
    have hq : q = ((q * 10 ^ k).num : ℚ) / ((10 ^ k : Int) : ℚ) := by
      rw [(Rat.den_eq_one_iff _).mp h]
      push_cast
      field_simp
    have hdvd := Rat.den_dvd (q * 10 ^ k).num (10 ^ k)
    rw [← Rat.intCast_div_eq_divInt, ← hq] at hdvd
    exact_mod_cast hdvd
  · rintro ⟨r, hr⟩
    have hten : (10 : ℚ) ^ k = q.den * r := by exact_mod_cast hr
    have hwhole : q * 10 ^ k = ((q.num * r : Int) : ℚ) := by
      rw [hten, ← mul_assoc, Rat.mul_den_eq_num, Int.cast_mul, Int.cast_natCast]
    rw [hwhole, Rat.den_intCast]

/-- The digits of a ratio with the given decimal places. -/
theorem scaled_eq {q : ℚ} {unit : Nat} (h : q.den ∣ unit) :
    ((q.num.natAbs * unit / q.den : Nat) : ℚ) = |q| * unit := by
  obtain ⟨k, hk⟩ := h
  have hden : (q.den : ℚ) ≠ 0 := by exact_mod_cast q.den_ne_zero
  have habs : |q| = q.num.natAbs / q.den := by
    rw [Nat.cast_natAbs, Int.cast_abs, ← Nat.abs_cast q.den, ← abs_div, Rat.num_div_den]
  rw [hk, mul_left_comm, Nat.mul_div_cancel_left _ q.den_pos, habs]
  push_cast
  field_simp

end Ratio

/-! ## Digits that come from a ratio -/

/-- Digits that denote a size, with a sign of their own. -/
theorem Digits.toRatio_of_size {d : Digits} (n : Nat) (size : ℚ)
    (hn : Text.appendDigits? d.whole d.fraction.toList = some n) (he : d.exponent = none)
    (hsize : (n : ℚ) = size * 10 ^ d.fraction.toList.length) :
    d.toRatio = .ok (if d.negative then -size else size) := by
  have h : (n : ℚ) * 10 ^ (d.exponent.getD 0 - (d.fraction.toList.length : Int)) = size := by
    rw [he, hsize, Option.getD_none, zero_sub, zpow_neg, zpow_natCast]
    field_simp
  rw [Digits.toRatio, hn]
  simp only [h]

/-- Turning the sign of digits turns the sign of their ratio. -/
theorem Digits.toRatio_flip {d : Digits} {q : ℚ} (h : d.toRatio = .ok q) :
    ({ d with negative := !d.negative } : Digits).toRatio = .ok (-q) := by
  unfold Digits.toRatio at h ⊢
  simp only at h ⊢
  split at h
  · cases h
  · cases h
    cases d.negative <;> simp

theorem Digits.toRatio_abs {d : Digits} {q : ℚ} (h : d.toRatio = .ok q) :
    ({ d with negative := false } : Digits).toRatio = .ok |q| := by
  unfold Digits.toRatio at h ⊢
  simp only at h ⊢
  split at h
  · cases h
  · next n hn =>
    cases h
    have hsize : (0 : ℚ) ≤ n * 10 ^ (d.exponent.getD 0 - (d.fraction.toList.length : Int)) := by
      positivity
    cases d.negative <;> simp [abs_of_nonneg hsize]

theorem ite_neg_abs (q : ℚ) : (if (decide (q < 0)) = true then -|q| else |q|) = q := by
  by_cases h : q < 0
  · simp [h, abs_of_neg h]
  · simp [h, abs_of_nonneg (not_lt.mp h)]

/-- The decimal of a ratio denotes the ratio. -/
theorem Ratio.ofDecimal_toRatio {q : ℚ} {d : Ratio.Decimal} (h : Ratio.decimal? q = some d) :
    (Digits.ofDecimal d).toRatio = .ok q ∧ (d.fraction.isEmpty →
      (Digits.ofDecimal { d with fraction := "0" }).toRatio = .ok q) := by
  unfold Ratio.decimal? at h
  split at h
  · next hdec =>
    cases h
    have hdvd := Ratio.den_dvd_of_isDecimal hdec
    have hscaled := Ratio.scaled_eq hdvd
    have hpow : Nat.pow 10 (Ratio.places q) = 10 ^ Ratio.places q := rfl
    simp only [hpow]
    generalize hs : q.num.natAbs * 10 ^ Ratio.places q / q.den = scaled at hscaled
    rcases Nat.eq_zero_or_pos (Ratio.places q) with h0 | hpos
    · rw [h0, pow_zero, Nat.cast_one, mul_one] at hscaled
      simp only [h0, pow_zero, Nat.div_one, if_true]
      constructor
      · refine (Digits.toRatio_of_size scaled |q| ?_ rfl ?_).trans
          (congrArg _ (ite_neg_abs q))
        · rfl
        · simpa [Digits.ofDecimal] using hscaled
      · -- the zero that is appended is undone by the place that it takes
        intro _
        refine (Digits.toRatio_of_size (10 * scaled) |q| ?_ rfl ?_).trans
          (congrArg _ (ite_neg_abs q))
        · show Text.appendDigits? scaled "0".toList = _
          rw [Text.appendDigits?_of_isDigit (by simp)]
          simp [Nat.ofDigitChars_cons]
        · simp [Digits.ofDecimal, hscaled, mul_comm]
    · have hlen := Ratio.length_padded hpos (Nat.mod_lt scaled (show 0 < 10 ^ Ratio.places q by positivity))
      simp only [if_neg hpos.ne']
      constructor
      · refine (Digits.toRatio_of_size scaled |q| ?_ rfl ?_).trans
          (congrArg _ (ite_neg_abs q))
        · refine (Text.appendDigits?_of_isDigit (fun c => Ratio.isDigit_of_mem_padded) _).trans ?_
          rw [Option.some.injEq]
          show 10 ^ (Ratio.padded _ _).toList.length * _ +
            Nat.ofDigitChars 10 (Ratio.padded _ _).toList 0 = _
          rw [hlen, Ratio.ofDigitChars_padded]
          exact Nat.div_add_mod _ _
        · show _ = _ * 10 ^ (Ratio.padded _ _).toList.length
          rw [hlen, hscaled]
          push_cast
          rfl
      · intro hempty
        rw [String.isEmpty_iff] at hempty
        rw [hempty] at hlen
        simp at hlen
        omega
  · cases h

namespace Literal

/-- A spelled decimal denotes the ratio that it spells. -/
theorem exists_of_ofDecimal? {q : ℚ} {f : DecimalFlavor} {l : Literal}
    (h : ofDecimal? q f = some l) : f ≠ .real ∧ ∃ d, l = decimal d f ∧ d.toRatio = .ok q := by
  unfold ofDecimal? at h
  split at h
  · cases h
  · next hf =>
    obtain ⟨d, hd, rfl⟩ := Option.map_eq_some_iff.mp h
    exact ⟨hf, _, rfl, (Ratio.ofDecimal_toRatio hd).1⟩

/-- Spelled cents denote the size that they spell. -/
theorem exists_of_ofCents? {q : ℚ} {l : Literal} (h : ofCents? q = some l) :
    ∃ d, l = cents d false ∧ d.toRatio = .ok q := by
  obtain ⟨d, hd, rfl⟩ := Option.map_eq_some_iff.mp h
  refine ⟨_, rfl, ?_⟩
  by_cases hempty : d.fraction.isEmpty
  · simp only [hempty, if_true]
    exact (Ratio.ofDecimal_toRatio hd).2 hempty
  · simp only [hempty]
    exact (Ratio.ofDecimal_toRatio hd).1

end Literal

end Intonation
