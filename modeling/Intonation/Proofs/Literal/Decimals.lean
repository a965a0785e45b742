import Intonation.Proofs.Monzo.Predicates
import Intonation.Proofs.Ratio.Reading

/-!
# The shortest decimal of a ratio

A ratio is written as a decimal exactly when its expansion terminates. The text has no superfluous
zero at either end: none in front of its whole part, and no more digits after the point than the
ratio needs. Read as a number, or through the decimal and cents literals made of the same digits,
it gives the ratio back.

## Main definitions

* `Ratio.Spelling`: the shortest decimal of a ratio

## Main statements

* `Ratio.places_le_iff`: how many places write a ratio exactly
* `Digits.make_of_toRatio`: digits that denote a ratio are accepted
* `Ratio.decimal_exact`: decimals are written, and made into literals, without loss
-/

namespace Intonation

namespace Ratio

variable {q : ℚ}

/-! ## Places -/

/-- A power of ten has no more factors of two, and of five, than its exponent says. -/
theorem le_of_pow_dvd_ten_pow {p n k : Nat} (hp : p = 2 ∨ p = 5) (h : p ^ n ∣ 10 ^ k) : n ≤ k := by
  rcases hp with rfl | rfl
  · rw [show 10 = 2 * 5 from rfl, mul_pow] at h
    have hcop : Nat.Coprime (2 ^ n) (5 ^ k) := Nat.Coprime.pow _ _ (by norm_num)
    exact (Nat.pow_dvd_pow_iff_le_right (by norm_num)).mp (hcop.dvd_of_dvd_mul_right h)
  · rw [show 10 = 2 * 5 from rfl, mul_pow] at h
    have hcop : Nat.Coprime (5 ^ n) (2 ^ k) := Nat.Coprime.pow _ _ (by norm_num)
    exact (Nat.pow_dvd_pow_iff_le_right (by norm_num)).mp (hcop.dvd_of_dvd_mul_left h)

/-- No fewer places write a terminating ratio exactly, and any more do. -/
theorem places_le_iff (h : isDecimal q) {k : Nat} : (q * 10 ^ k).den = 1 ↔ places q ≤ k := by
  rw [den_mul_pow_eq_one_iff]
  constructor
  · intro hdvd
    obtain ⟨htwos, -⟩ := Prime.strip_spec (p := 2) le_rfl q.den_pos
    obtain ⟨hfives, -⟩ := Prime.strip_spec (p := 5) (by norm_num) q.den_pos
    exact max_le
      (le_of_pow_dvd_ten_pow (.inl rfl) ((Dvd.intro_left _ htwos).trans hdvd))
      (le_of_pow_dvd_ten_pow (.inr rfl) ((Dvd.intro_left _ hfives).trans hdvd))
  · exact fun hle => (den_dvd_of_isDecimal h).trans (Nat.pow_dvd_pow 10 hle)

/-! ## Digits -/

/-- The digits after the point of a decimal, as many as the ratio has places. -/
theorem fraction_of_decimal? {d : Decimal} (h : decimal? q = some d) :
    d.negative = decide (q < 0) ∧ (∀ c ∈ d.fraction.toList, c.isDigit) ∧
      d.fraction.toList.length = places q := by
  unfold decimal? at h
  split at h
  · cases h
    refine ⟨rfl, ?_⟩
    rcases Nat.eq_zero_or_pos (places q) with h0 | hpos
    · simp [h0]
    · simp only [if_neg hpos.ne']
      exact ⟨fun c => isDigit_of_mem_padded,
        length_padded hpos (Nat.mod_lt _ (Nat.pow_pos (by norm_num)))⟩
  · cases h

theorem decimal?_ne_none_iff : (∃ d, decimal? q = some d) ↔ Terminates q := by
  rw [← isDecimal_iff_terminates, decimal?]
  by_cases h : isDecimal q <;> simp [h]

/-- The shortest decimal of a ratio: digits before the point without a superfluous zero in front,
and the fewest digits after it that write the ratio exactly. -/
structure Spelling (q : ℚ) where
  whole : List Char
  fraction : List Char
  isDigit : ∀ c ∈ whole ++ fraction, c.isDigit
  whole_ne_nil : whole ≠ []
  leading : whole.head? = some '0' → whole = ['0']
  shortest : ∀ k : Nat, (q * 10 ^ k).den = 1 ↔ fraction.length ≤ k

/-- The characters of a decimal: a minus sign for a negative ratio, and a point only when digits
follow it. -/
def Spelling.chars (s : Spelling q) : List Char :=
  withSign (decide (q < 0)) (s.whole ++ if s.fraction = [] then [] else '.' :: s.fraction)

/-- No point is written in an integer, and only there. -/
theorem Spelling.fraction_eq_nil_iff (s : Spelling q) : s.fraction = [] ↔ q.den = 1 := by
  have h := s.shortest 0
  rw [pow_zero, mul_one, Nat.le_zero, List.length_eq_zero_iff] at h
  exact h.symm

/-- The text of a decimal is the shortest one, and is read back exactly. -/
theorem spelling_of_decimal? {d : Decimal} (h : decimal? q = some d) :
    (∃ s : Spelling q, d.text.toList = s.chars) ∧ read d.text = .ok q := by
  obtain ⟨hsign, hdigits, hlength⟩ := fraction_of_decimal? h
  have hterm : isDecimal q :=
    isDecimal_iff_terminates.mpr (decimal?_ne_none_iff.mp ⟨d, h⟩)
  refine ⟨⟨{
    whole := Nat.toDigits 10 d.whole
    fraction := d.fraction.toList
    isDigit := fun c hc => (List.mem_append.mp hc).elim (isDigit_toDigits c) (hdigits c)
    whole_ne_nil := Nat.toDigits_ne_nil
    leading := eq_zero_of_head_toDigits
    shortest := fun k => by rw [hlength]; exact places_le_iff hterm }, ?_⟩,
    read_decimal hdigits (ofDecimal_toRatio h).1⟩
  rw [toList_decimal, hsign]
  rfl

end Ratio

/-! ## Literals -/

/-- Digits that denote a ratio are digits that a literal accepts. -/
theorem Digits.make_of_toRatio {d : Digits} {q : ℚ} (h : d.toRatio = .ok q) :
    Digits.make d.whole d.fraction d.exponent d.negative = .ok d := by
  have hall : ∀ cs n, Text.appendDigits? n cs ≠ none → cs.all Text.isDigitLike = true := by
    intro cs
    induction cs with
    | nil => exact fun _ _ => rfl
    | cons c cs ih =>
      intro n hn
      rw [Text.appendDigits?] at hn
      rcases hvalue : Text.digitValue? c with - | v
      · exact absurd (by rw [hvalue, Option.bind_none]) hn
      · rw [hvalue, Option.bind_some] at hn
        simp [Text.isDigitLike, Text.isDigit, hvalue, ih _ hn]
  have hsome : Text.appendDigits? d.whole d.fraction.toList ≠ none := by
    intro hnone
    rw [Digits.toRatio, hnone] at h
    cases h
  rw [Digits.make, if_neg (by omega), if_pos (hall _ _ hsome), Int.toNat_natCast]

namespace Literal

theorem ofDecimal?_ne_none_iff {q : ℚ} {flavor : DecimalFlavor} (hflavor : flavor ≠ .real) :
    (∃ l, ofDecimal? q flavor = some l) ↔ Ratio.Terminates q := by
  rw [← Ratio.decimal?_ne_none_iff, ofDecimal?, if_neg hflavor]
  simp

theorem ofCents?_ne_none_iff {q : ℚ} : (∃ l, ofCents? q = some l) ↔ Ratio.Terminates q := by
  rw [← Ratio.decimal?_ne_none_iff, ofCents?]
  simp

end Literal

end Intonation
