import Intonation.Proofs.Double.Words

/-!
# Rounding to the nearest double

The double nearest to a positive quotient has a word that grows with the quotient: the quotient
is measured in units of a power of two, and the number of units is rounded to the nearest
integer, a half going to the even one.

## Main definitions

* `Fits n d q`: the unit `2 ^ q` in which a quotient has a mantissa of fifty-three binary digits
* `mantissaOf`, `exponentOf`, `ratioOf`: what a word of a positive double stands for

## Main statements

* `roundDiv_le_roundDiv`, `quotientBits_le_quotientBits`: rounding keeps the order
* `quotientBits_eq_word`: the word in terms of any unit that fits
* `toRat?_ofBits`, `ratioOf_le_ratioOf`: words in order are doubles in order
-/

namespace Intonation.Double

/-! ## Rounding quotients to integers -/

theorem div_le_roundDiv (n d : Nat) : n / d ≤ roundDiv n d := by
  unfold roundDiv
  simp only
  split_ifs <;> omega

theorem roundDiv_le_div_add_one (n d : Nat) : roundDiv n d ≤ n / d + 1 := by
  unfold roundDiv
  simp only
  split_ifs <;> omega

/-- Rounding keeps the order of quotients. -/
theorem roundDiv_le_roundDiv {n d n' d' : Nat} (hd : 0 < d) (hd' : 0 < d')
    (h : n * d' ≤ n' * d) : roundDiv n d ≤ roundDiv n' d' := by
  have hq : n / d ≤ n' / d' := by
    rw [Nat.le_div_iff_mul_le hd']
    have h1 : n / d * d ≤ n := Nat.div_mul_le_self n d
    have h2 : n / d * d' * d ≤ n' * d := by
      calc n / d * d' * d = n / d * d * d' := by ring
        _ ≤ n * d' := Nat.mul_le_mul_right d' h1
        _ ≤ n' * d := h
    exact Nat.le_of_mul_le_mul_right h2 hd
  rcases hq.lt_or_eq with hlt | heq
  · exact (roundDiv_le_div_add_one n d).trans
      ((Nat.succ_le_of_lt hlt).trans (div_le_roundDiv n' d'))
  · -- equal whole parts: the remainders decide
    have hr : n % d * d' ≤ n' % d' * d := by
      have h1 := Nat.div_add_mod n d
      have h2 := Nat.div_add_mod n' d'
      have h3 : n * d' = n / d * d * d' + n % d * d' := by
        conv_lhs => rw [← h1]
        ring
      have h4 : n' * d = n' / d' * d * d' + n' % d' * d := by
        conv_lhs => rw [← h2]
        ring
      rw [h3, h4, heq] at h
      omega
    unfold roundDiv
    simp only [heq]
    have hlt : 2 * (n' % d') < d' → 2 * (n % d) < d := by
      intro hlt
      by_contra hge
      have h1 : d * d' ≤ 2 * (n % d) * d' := Nat.mul_le_mul_right d' (by omega)
      have h2 : 2 * (n' % d') * d < d' * d := Nat.mul_lt_mul_of_pos_right hlt hd
      nlinarith
    have hle : ¬ d' < 2 * (n' % d') → ¬ d < 2 * (n % d) := by
      intro hle hgt
      have h1 : d * d' < 2 * (n % d) * d' := Nat.mul_lt_mul_of_pos_right hgt hd'
      have h2 : 2 * (n' % d') * d ≤ d' * d := Nat.mul_le_mul_right d (by omega)
      nlinarith
    split_ifs <;> omega

theorem roundDiv_congr {n d n' d' : Nat} (hd : 0 < d) (hd' : 0 < d') (h : n * d' = n' * d) :
    roundDiv n d = roundDiv n' d' :=
  le_antisymm (roundDiv_le_roundDiv hd hd' h.le) (roundDiv_le_roundDiv hd' hd h.ge)

theorem roundDiv_one (n : Nat) : roundDiv n 1 = n := by
  simp [roundDiv, Nat.mod_one]

theorem roundDiv_le_of_le_mul {n d k : Nat} (hd : 0 < d) (h : n ≤ k * d) : roundDiv n d ≤ k := by
  rw [← roundDiv_one k]
  exact roundDiv_le_roundDiv hd one_pos (by simpa using h)

theorem le_roundDiv_of_mul_le {n d k : Nat} (hd : 0 < d) (h : k * d ≤ n) : k ≤ roundDiv n d := by
  rw [← roundDiv_one k]
  exact roundDiv_le_roundDiv one_pos hd (by simpa using h)

/-! ## The unit of a quotient -/

/-- A quotient has a mantissa of fifty-three binary digits in units of `2 ^ q`, or a smaller one
in the least unit. -/
structure Fits (n d : Nat) (q : Int) : Prop where
  ge : -1074 ≤ q
  lt : (n : ℚ) < d * 2 ^ (q + 53)
  le : q = -1074 ∨ (d : ℚ) * 2 ^ (q + 52) ≤ n

theorem Fits.le_of_quotient_le {n d n' d' : Nat} {q q' : Int} (hd : 0 < d) (hd' : 0 < d')
    (h : Fits n d q) (h' : Fits n' d' q') (hle : n * d' ≤ n' * d) : q ≤ q' := by
  by_contra hlt
  have hq : q ≠ -1074 := by
    have := h'.ge
    omega
  have h1 := h.le.resolve_left hq
  have h2 : (2 : ℚ) ^ (q' + 53) ≤ 2 ^ (q + 52) :=
    zpow_le_zpow_right₀ (by norm_num) (by omega)
  have h3 : (n : ℚ) * d' ≤ n' * d := by exact_mod_cast hle
  have hd1 : (0 : ℚ) < d := by exact_mod_cast hd
  have hd2 : (0 : ℚ) < d' := by exact_mod_cast hd'
  have h4 : (n' : ℚ) * d < n * d' := by
    calc (n' : ℚ) * d < d' * 2 ^ (q' + 53) * d := by
          exact mul_lt_mul_of_pos_right h'.lt hd1
      _ ≤ d' * 2 ^ (q + 52) * d := by gcongr
      _ = d * 2 ^ (q + 52) * d' := by ring
      _ ≤ n * d' := by gcongr
  exact absurd h3 (not_le.mpr h4)

theorem Fits.unique {n d n' d' : Nat} {q q' : Int} (hd : 0 < d) (hd' : 0 < d')
    (h : Fits n d q) (h' : Fits n' d' q') (heq : n * d' = n' * d) : q = q' :=
  le_antisymm (h.le_of_quotient_le hd hd' h' heq.le) (h'.le_of_quotient_le hd' hd h heq.ge)

theorem shiftLeft_le_iff {n d : Nat} {e : Int} :
    (if 0 ≤ e then d <<< e.toNat ≤ n else d ≤ n <<< (-e).toNat) ↔ (d : ℚ) * 2 ^ e ≤ n := by
  split
  · next he =>
    obtain ⟨k, rfl⟩ := Int.eq_ofNat_of_zero_le he
    simp only [Int.toNat_natCast, Nat.shiftLeft_eq, zpow_natCast]
    exact_mod_cast Iff.rfl
  · next he =>
    obtain ⟨k, hk⟩ := Int.eq_ofNat_of_zero_le (by omega : 0 ≤ -e)
    have hek : e = -(k : Int) := by omega
    subst hek
    simp only [neg_neg, Int.toNat_natCast, Nat.shiftLeft_eq, zpow_neg, zpow_natCast]
    rw [← div_eq_mul_inv, div_le_iff₀ (by positivity)]
    exact_mod_cast Iff.rfl

theorem two_pow_log2_le {n : Nat} (hn : 0 < n) : (2 : ℚ) ^ (n.log2 : Int) ≤ n := by
  rw [zpow_natCast]
  exact_mod_cast Nat.log2_self_le hn.ne'

theorem lt_two_pow_log2 (n : Nat) : (n : ℚ) < 2 ^ ((n.log2 : Int) + 1) := by
  have h : n < 2 ^ (n.log2 + 1) := Nat.lt_log2_self
  exact_mod_cast h

/-- The exponent that a quotient is given is the one that fits. -/
theorem fits_quotientExponent {n d : Nat} (hn : 0 < n) (hd : 0 < d) :
    Fits n d (quotientExponent n d) := by
  have hd1 : (0 : ℚ) < d := by exact_mod_cast hd
  -- the quotient lies between two neighbouring powers of two
  have key : ∃ e : Int, quotientExponent n d = max (e - 52) (-1074) ∧
      (d : ℚ) * 2 ^ e ≤ n ∧ (n : ℚ) < d * 2 ^ (e + 1) := by
    unfold quotientExponent
    simp only [shiftLeft_le_iff]
    by_cases h : (d : ℚ) * 2 ^ ((n.log2 : Int) - d.log2) ≤ n
    · refine ⟨(n.log2 : Int) - d.log2, by rw [if_pos h], h, ?_⟩
      calc (n : ℚ) < 2 ^ ((n.log2 : Int) + 1) := lt_two_pow_log2 n
        _ = 2 ^ (d.log2 : Int) * 2 ^ ((n.log2 : Int) - d.log2 + 1) := by
          rw [← zpow_add₀ (by norm_num)]
          congr 1
          ring
        _ ≤ d * 2 ^ ((n.log2 : Int) - d.log2 + 1) := by
          gcongr
          exact two_pow_log2_le hd
    · refine ⟨(n.log2 : Int) - d.log2 - 1, by rw [if_neg h], ?_, ?_⟩
      · calc (d : ℚ) * 2 ^ ((n.log2 : Int) - d.log2 - 1)
            ≤ 2 ^ ((d.log2 : Int) + 1) * 2 ^ ((n.log2 : Int) - d.log2 - 1) := by
              gcongr
              exact (lt_two_pow_log2 d).le
          _ = 2 ^ (n.log2 : Int) := by
            rw [← zpow_add₀ (by norm_num)]
            congr 1
            ring
          _ ≤ n := two_pow_log2_le hn
      · rw [sub_add_cancel]
        exact not_le.mp h
  obtain ⟨e, hq, hlo, hhi⟩ := key
  rw [hq]
  refine ⟨le_max_right _ _, ?_, ?_⟩
  · refine hhi.trans_le ?_
    have h : e + 1 ≤ max (e - 52) (-1074) + 53 := by
      have := le_max_left (e - 52) (-1074)
      omega
    exact mul_le_mul_of_nonneg_left (zpow_le_zpow_right₀ (by norm_num) h) hd1.le
  · rcases le_total (e - 52) (-1074) with h | h
    · exact .inl (max_eq_right h)
    · right
      rw [max_eq_left h, sub_add_cancel]
      exact hlo

/-! ## Words of quotients -/

/-- The number of units of `2 ^ q` in a quotient, rounded to the nearest. -/
def unitsOf (n d : Nat) (q : Int) : Nat :=
  if 0 ≤ q then roundDiv n (d <<< q.toNat) else roundDiv (n <<< (-q).toNat) d

theorem quotientBits_eq (n d : Nat) :
    quotientBits n d = word (unitsOf n d (quotientExponent n d)) (quotientExponent n d) := by
  simp [quotientBits, word, unitsOf, Nat.shiftLeft_eq]

/-- The number of units as the rounding of one quotient. -/
theorem unitsOf_eq_roundDiv (n d : Nat) (hd : 0 < d) (q : Int) : ∃ n' d', 0 < d' ∧
    unitsOf n d q = roundDiv n' d' ∧ (n' : ℚ) * (d * 2 ^ q) = n * d' := by
  unfold unitsOf
  split
  · next hq =>
    obtain ⟨k, rfl⟩ := Int.eq_ofNat_of_zero_le hq
    refine ⟨n, d * 2 ^ k, by positivity, by simp [Nat.shiftLeft_eq], ?_⟩
    push_cast
    rw [zpow_natCast]
  · next hq =>
    obtain ⟨k, hk⟩ := Int.eq_ofNat_of_zero_le (by omega : 0 ≤ -q)
    have hqk : q = -(k : Int) := by omega
    subst hqk
    refine ⟨n * 2 ^ k, d, hd, by simp [Nat.shiftLeft_eq], ?_⟩
    push_cast
    rw [zpow_neg, zpow_natCast]
    field_simp

theorem unitsOf_le_unitsOf {n d n' d' : Nat} {q : Int} (hd : 0 < d) (hd' : 0 < d')
    (h : n * d' ≤ n' * d) : unitsOf n d q ≤ unitsOf n' d' q := by
  obtain ⟨a, b, hb, hu, hab⟩ := unitsOf_eq_roundDiv n d hd q
  obtain ⟨a', b', hb', hu', hab'⟩ := unitsOf_eq_roundDiv n' d' hd' q
  rw [hu, hu']
  apply roundDiv_le_roundDiv hb hb'
  have h1 : (n : ℚ) * d' ≤ n' * d := by exact_mod_cast h
  have hp : (0 : ℚ) < d * d' * 2 ^ q := by positivity
  have h2 : (a : ℚ) * b' * (d * d' * 2 ^ q) ≤ a' * b * (d * d' * 2 ^ q) := by
    calc (a : ℚ) * b' * (d * d' * 2 ^ q) = a * (d * 2 ^ q) * d' * b' := by ring
      _ = n * d' * (b * b') := by rw [hab]; ring
      _ ≤ n' * d * (b * b') := by gcongr
      _ = a' * (d' * 2 ^ q) * d * b := by rw [hab']; ring
      _ = a' * b * (d * d' * 2 ^ q) := by ring
  exact_mod_cast le_of_mul_le_mul_right h2 hp

theorem unitsOf_le_of_le {n d k : Nat} {q : Int} (hd : 0 < d) (h : (n : ℚ) ≤ d * (k * 2 ^ q)) :
    unitsOf n d q ≤ k := by
  obtain ⟨a, b, hb, hu, hab⟩ := unitsOf_eq_roundDiv n d hd q
  rw [hu]
  apply roundDiv_le_of_le_mul hb
  have hp : (0 : ℚ) < d * 2 ^ q := by positivity
  have h2 : (a : ℚ) * (d * 2 ^ q) ≤ k * b * (d * 2 ^ q) := by
    calc (a : ℚ) * (d * 2 ^ q) = n * b := hab
      _ ≤ d * (k * 2 ^ q) * b := by gcongr
      _ = k * b * (d * 2 ^ q) := by ring
  exact_mod_cast le_of_mul_le_mul_right h2 hp

theorem le_unitsOf_of_le {n d k : Nat} {q : Int} (hd : 0 < d) (h : d * (k * 2 ^ q) ≤ (n : ℚ)) :
    k ≤ unitsOf n d q := by
  obtain ⟨a, b, hb, hu, hab⟩ := unitsOf_eq_roundDiv n d hd q
  rw [hu]
  apply le_roundDiv_of_mul_le hb
  have hp : (0 : ℚ) < d * 2 ^ q := by positivity
  have h2 : (k : ℚ) * b * (d * 2 ^ q) ≤ a * (d * 2 ^ q) := by
    calc (k : ℚ) * b * (d * 2 ^ q) = d * (k * 2 ^ q) * b := by ring
      _ ≤ n * b := by gcongr
      _ = a * (d * 2 ^ q) := hab.symm
  exact_mod_cast le_of_mul_le_mul_right h2 hp

theorem Fits.unitsOf_le {n d : Nat} {q : Int} (hd : 0 < d) (h : Fits n d q) :
    unitsOf n d q ≤ 2 ^ 53 := by
  apply unitsOf_le_of_le hd
  refine h.lt.le.trans (le_of_eq ?_)
  rw [zpow_add₀ (by norm_num)]
  push_cast
  ring

theorem Fits.le_unitsOf {n d : Nat} {q : Int} (hd : 0 < d) (h : Fits n d q) (hq : q ≠ -1074) :
    2 ^ 52 ≤ unitsOf n d q := by
  apply le_unitsOf_of_le hd
  refine le_trans (le_of_eq ?_) (h.le.resolve_left hq)
  rw [zpow_add₀ (by norm_num)]
  push_cast
  ring

/-- The word of a quotient in terms of any unit that fits. -/
theorem quotientBits_eq_word {n d : Nat} {q : Int} (hn : 0 < n) (hd : 0 < d) (h : Fits n d q) :
    quotientBits n d = word (unitsOf n d q) q := by
  rw [quotientBits_eq, (fits_quotientExponent hn hd).unique hd hd h rfl]

/-- Rounding to the nearest double keeps the order. -/
theorem quotientBits_le_quotientBits {n d n' d' : Nat} (hn : 0 < n) (hd : 0 < d) (hd' : 0 < d')
    (h : n * d' ≤ n' * d) : quotientBits n d ≤ quotientBits n' d' := by
  have hn' : 0 < n' := by
    by_contra h0
    have h1 : n' = 0 := by omega
    subst h1
    have := Nat.mul_pos hn hd'
    omega
  have hf := fits_quotientExponent hn hd
  have hf' := fits_quotientExponent hn' hd'
  rw [quotientBits_eq, quotientBits_eq]
  have hq := hf.le_of_quotient_le hd hd' hf' h
  rcases hq.eq_or_lt with heq | hlt
  · have hu := unitsOf_le_unitsOf (q := quotientExponent n' d') hd hd' h
    rw [heq, word, word]
    omega
  · have h1 := hf.unitsOf_le hd
    have h2 := hf'.le_unitsOf hd' (by have := hf.ge; omega)
    have h3 := hf.ge
    rw [word, word]
    omega

theorem quotientBits_congr {n d n' d' : Nat} (hn : 0 < n) (hn' : 0 < n') (hd : 0 < d)
    (hd' : 0 < d') (h : n * d' = n' * d) : quotientBits n d = quotientBits n' d' :=
  le_antisymm (quotientBits_le_quotientBits hn hd hd' h.le)
    (quotientBits_le_quotientBits hn' hd' hd h.ge)

/-! ## What words stand for -/

/-- The mantissa of a word of a positive double. -/
def mantissaOf (w : Nat) : Nat := if w / 2 ^ 52 = 0 then w else 2 ^ 52 + w % 2 ^ 52

/-- The exponent of a word of a positive double. -/
def exponentOf (w : Nat) : Int := max (w / 2 ^ 52 : Nat) 1 - 1075

/-- The ratio that a word of a positive double stands for. -/
def ratioOf (w : Nat) : ℚ := mantissaOf w * 2 ^ exponentOf w

theorem ratioOf_nonneg (w : Nat) : 0 ≤ ratioOf w := by
  rw [ratioOf]
  positivity

theorem word_mantissaOf (w : Nat) : word (mantissaOf w) (exponentOf w) = w := by
  unfold word mantissaOf exponentOf
  split <;> omega

theorem normalized_of_pos {w : Nat} (hw : 0 < w) : Normalized (mantissaOf w) (exponentOf w) := by
  unfold mantissaOf exponentOf
  constructor
  · split <;> omega
  · split <;> omega
  · omega
  · split <;> omega

theorem exponentOf_le {w : Nat} (hw : w < infinityBits) : exponentOf w ≤ 971 := by
  rw [infinityBits_eq] at hw
  unfold exponentOf
  omega

/-- A normalized mantissa and exponent are read off their word. -/
theorem Normalized.of_word {m : Nat} {e : Int} (h : Normalized m e) :
    mantissaOf (word m e) = m ∧ exponentOf (word m e) = e := by
  have h1 := h.mantissa_lt
  have h2 := h.exponent_ge
  have h3 := h.leading
  unfold mantissaOf exponentOf word
  constructor
  · split <;> omega
  · omega

theorem ratioOf_le_succ (w : Nat) : ratioOf w ≤ ratioOf (w + 1) := by
  unfold ratioOf
  by_cases hq : (w + 1) / 2 ^ 52 = w / 2 ^ 52
  · have hm : mantissaOf (w + 1) = mantissaOf w + 1 := by
      unfold mantissaOf
      rw [hq]
      split <;> omega
    have he : exponentOf (w + 1) = exponentOf w := by
      unfold exponentOf
      rw [hq]
    rw [hm, he]
    gcongr
    simp
  · -- the step to the next exponent doubles the unit
    have hq' : (w + 1) / 2 ^ 52 = w / 2 ^ 52 + 1 := by omega
    by_cases h0 : w / 2 ^ 52 = 0
    · have he : exponentOf (w + 1) = exponentOf w := by
        unfold exponentOf
        omega
      have hm : mantissaOf w ≤ mantissaOf (w + 1) := by
        unfold mantissaOf
        rw [if_pos h0, if_neg (by omega)]
        omega
      rw [he]
      gcongr
    · have he : exponentOf (w + 1) = exponentOf w + 1 := by
        unfold exponentOf
        omega
      have hm : mantissaOf w ≤ mantissaOf (w + 1) * 2 := by
        unfold mantissaOf
        rw [if_neg h0, if_neg (by omega)]
        omega
      have hm' : (mantissaOf w : ℚ) ≤ mantissaOf (w + 1) * 2 := by exact_mod_cast hm
      rw [he, zpow_add₀ (by norm_num)]
      calc (mantissaOf w : ℚ) * 2 ^ exponentOf w
          ≤ mantissaOf (w + 1) * 2 * 2 ^ exponentOf w := by gcongr
        _ = mantissaOf (w + 1) * (2 ^ exponentOf w * 2 ^ (1 : Int)) := by
          rw [zpow_one]
          ring

/-- Words in order stand for ratios in order. -/
theorem ratioOf_le_ratioOf {w w' : Nat} (h : w ≤ w') : ratioOf w ≤ ratioOf w' :=
  monotone_nat_of_le_succ ratioOf_le_succ h

/-- The ratio of the double with a given word. -/
theorem toRat?_ofBits {w : Nat} (hw : w < infinityBits) :
    toRat? (Float.ofBits (UInt64.ofNat w)) = some (ratioOf w) := by
  rcases Nat.eq_zero_or_pos w with rfl | hpos
  · have h : finite? (Float.ofBits (UInt64.ofNat 0)) = some ⟨false, 0, -1074⟩ := by decide
    rw [toRat?, h]
    simp [Finite.toRat, ratioOf, mantissaOf]
  · have h := finite?_ofBits_word (normalized_of_pos hpos) (exponentOf_le hw)
    rw [word_mantissaOf] at h
    simp [toRat?, h, Finite.toRat, ratioOf]

theorem toRat?_infinity : toRat? (Float.ofBits (UInt64.ofNat infinityBits)) = none := by
  have h : finite? (Float.ofBits (UInt64.ofNat infinityBits)) = none := by decide
  rw [toRat?, h]
  rfl

theorem ratioOf_word {m : Nat} {e : Int} (h : Normalized m e) : ratioOf (word m e) = m * 2 ^ e := by
  rw [ratioOf, h.of_word.1, h.of_word.2]

/-- The word of a positive ratio. -/
def ratioBits (q : ℚ) : Nat := quotientBits q.num.natAbs q.den

theorem ofRat?_of_pos {q : ℚ} (hq : 0 < q) : ofRat? q =
    if infinityBits ≤ ratioBits q then none
    else some (Float.ofBits (UInt64.ofNat (ratioBits q))) := by
  unfold ofRat? ratioBits
  rw [if_neg hq.ne']
  simp only [if_neg (not_lt.mpr hq.le)]

theorem natAbs_num_mul_den_le {p q : ℚ} (hp : 0 < p) (h : p ≤ q) :
    p.num.natAbs * q.den ≤ q.num.natAbs * p.den := by
  have hq : 0 < q := hp.trans_le h
  have h1 : p.num * q.den ≤ q.num * p.den := (Rat.le_iff p q).mp h
  have h2 : (p.num.natAbs : Int) = p.num := Int.natAbs_of_nonneg (Rat.num_nonneg.mpr hp.le)
  have h3 : (q.num.natAbs : Int) = q.num := Int.natAbs_of_nonneg (Rat.num_nonneg.mpr hq.le)
  zify
  rw [← Int.natCast_natAbs, ← Int.natCast_natAbs, h2, h3]
  exact h1

/-- Larger ratios have larger words. -/
theorem ratioBits_le_ratioBits {p q : ℚ} (hp : 0 < p) (h : p ≤ q) : ratioBits p ≤ ratioBits q :=
  quotientBits_le_quotientBits (Int.natAbs_pos.mpr (Rat.num_pos.mpr hp).ne') p.den_pos q.den_pos
    (natAbs_num_mul_den_le hp h)

/-- The word of a ratio that is given as a quotient. -/
theorem ratioBits_div {n d : Nat} (hn : 0 < n) (hd : 0 < d) :
    ratioBits ((n : ℚ) / d) = quotientBits n d := by
  have hn' : (0 : ℚ) < n := by exact_mod_cast hn
  have hd' : (0 : ℚ) < d := by exact_mod_cast hd
  have hpos : (0 : ℚ) < (n : ℚ) / d := div_pos hn' hd'
  have hnum := Int.natAbs_of_nonneg (Rat.num_nonneg.mpr hpos.le)
  apply quotientBits_congr (Int.natAbs_pos.mpr (Rat.num_pos.mpr hpos).ne') hn (Rat.den_pos _) hd
  have h : (((n : ℚ) / d).num : ℚ) / ((n : ℚ) / d).den = n / d := Rat.num_div_den _
  rw [div_eq_div_iff (by exact_mod_cast (Rat.den_pos _).ne') hd'.ne'] at h
  have h2 : ((n : ℚ) / d).num * d = n * ((n : ℚ) / d).den := by exact_mod_cast h
  zify
  rw [← Int.natCast_natAbs, hnum]
  exact h2

end Intonation.Double
