import Intonation.Prime.Size
import Intonation.Proofs.Double.Rounding
import Intonation.Proofs.Double.Zero

/-!
# Products of positive doubles

The product of two positive doubles is the double nearest to the product of the ratios that they
stand for. Bounds on scaled ratios therefore keep the order: what is smaller than a ratio within
a bound is within the bound.

## Main definitions

* `Within size bound q`: a ratio scaled by a size does not exceed a bound

## Main statements

* `ofWord_mul`: the product of two positive doubles
* `Within.of_le`: a smaller ratio stays within the bound
* `Within.le`: a ratio within a bound is small
-/

namespace Intonation.Double
open Float.Model Float.Model.UnpackedFloat

/-! ## Shifting mantissas -/

/-- The mantissa and the two residual bits after shifting out `k` binary digits of `n`. -/
structure Shifted (em : ExtendedMantissa) (n k : Nat) : Prop where
  mantissa : em.mantissa = n / 2 ^ k
  round : em.roundBit = decide (2 ^ k ≤ 2 * (n % 2 ^ k))
  sticky : em.stickyBit = decide (2 * (n % 2 ^ k) % 2 ^ k ≠ 0)

theorem Shifted.zero (n : Nat) : Shifted ⟨n, false, false⟩ n 0 := by
  constructor <;> simp [Nat.mod_one]

theorem Shifted.succ {em : ExtendedMantissa} {n k : Nat} (h : Shifted em n k) :
    Shifted em.shiftRightOne n (k + 1) := by
  have hmod : n % 2 ^ (k + 1) = n % 2 ^ k + 2 ^ k * (n / 2 ^ k % 2) := by
    rw [pow_succ, Nat.mod_mul]
  have hpow : 2 ^ (k + 1) = 2 * 2 ^ k := by ring
  have hpos : 0 < 2 ^ k := Nat.two_pow_pos k
  have hlt : n % 2 ^ k < 2 ^ k := Nat.mod_lt _ hpos
  have hdigit : n / 2 ^ k % 2 = 0 ∨ n / 2 ^ k % 2 = 1 := by omega
  constructor
  · show em.mantissa / 2 = _
    rw [h.mantissa, Nat.div_div_eq_div_mul, pow_succ]
  · show (em.mantissa % 2 != 0) = _
    rw [h.mantissa, hmod, hpow]
    rcases hdigit with hd | hd
    · rw [hd, decide_eq_false (by omega)]
      rfl
    · rw [hd, decide_eq_true (by omega)]
      rfl
  · -- a digit shifted out before the last one is remembered
    show (em.roundBit || em.stickyBit) = _
    have hrest : 2 * (n % 2 ^ (k + 1)) % 2 ^ (k + 1) = 2 * (n % 2 ^ k) := by
      rw [hmod, hpow]
      rcases hdigit with hd | hd
      · rw [hd, mul_zero, add_zero, Nat.mod_eq_of_lt (by omega)]
      · rw [hd, mul_one, mul_add, Nat.add_mod_right, Nat.mod_eq_of_lt (by omega)]
    rw [h.round, h.sticky, hrest, ← Bool.decide_or]
    apply decide_eq_decide.mpr
    by_cases hge : 2 ^ k ≤ 2 * (n % 2 ^ k)
    · simp only [hge, true_or, true_iff]
      omega
    · rw [Nat.mod_eq_of_lt (by omega : 2 * (n % 2 ^ k) < 2 ^ k)]
      simp [hge]

theorem shifted_shiftRight (n k : Nat) :
    Shifted ((⟨n, false, false⟩ : ExtendedMantissa) >>> k) n k := by
  show Shifted (k.repeat ExtendedMantissa.shiftRightOne _) n k
  induction k with
  | zero => exact Shifted.zero n
  | succ k ih => exact ih.succ

/-- The two residual bits decide the rounding of a quotient by a power of two. -/
theorem Shifted.roundedMantissa {em : ExtendedMantissa} {n k : Nat} (h : Shifted em n k) :
    em.roundedMantissa = roundDiv n (2 ^ k) := by
  have hpos : 0 < 2 ^ k := Nat.two_pow_pos k
  have hlt : n % 2 ^ k < 2 ^ k := Nat.mod_lt _ hpos
  obtain ⟨hm, hr, hs⟩ := h
  obtain ⟨m, r, s⟩ := em
  simp only at hm hr hs
  subst hm
  have hover : 2 ^ k ≤ 2 * (n % 2 ^ k) →
      2 * (n % 2 ^ k) % 2 ^ k = 2 * (n % 2 ^ k) - 2 ^ k := by
    intro hge
    rw [Nat.mod_eq_sub_mod hge, Nat.mod_eq_of_lt (by omega)]
  have hunder : ¬ 2 ^ k ≤ 2 * (n % 2 ^ k) → 2 * (n % 2 ^ k) % 2 ^ k = 2 * (n % 2 ^ k) :=
    fun hlt => Nat.mod_eq_of_lt (by omega)
  unfold roundDiv
  cases r <;> cases s <;>
    simp only [ExtendedMantissa.roundedMantissa, ExtendedMantissa.accuracy,
      Accuracy.roundToNearestEven, true_eq_decide_iff, false_eq_decide_iff, ne_eq,
      not_not] at hr hs ⊢
  · rw [hunder hr] at hs
    rw [if_pos (by omega)]
  · rw [if_pos (by omega)]
  · rw [hover hr] at hs
    rw [if_neg (by omega), if_neg (by omega)]
  · rw [hover hr] at hs
    rw [if_neg (by omega), if_pos (by omega)]

/-! ## Rounding a mantissa -/

/-- The exponent of a mantissa rounded to fifty-three binary digits. -/
def roundedExponent (m : Nat) (e : Int) : Int := max (m.log2 + e - 52) (-1074)

theorem shiftToTargetExponent_eq (m : Nat) (e : Int) :
    shiftToTargetExponent Format.binary64 m e .exact =
      ((⟨m, false, false⟩ : ExtendedMantissa) >>> (roundedExponent m e - e).toNat,
        e + ((roundedExponent m e - e).toNat : Int)) := by
  have hmin : Format.binary64.minExponent = -1074 := by decide
  have h : Format.binary64.targetExponent (totalExponent m e) = roundedExponent m e := by
    rw [Format.targetExponent, totalExponent, hmin, roundedExponent]
    congr 1
    show (m.log2 : Int) + 1 + e - (53 : Nat) = _
    omega
  rw [shiftToTargetExponent, shiftToExponent, h]
  rfl

/-- Rounding shifts to the exponent of the mantissa, rounds, and shifts once more. -/
theorem roundWithAccuracy_eq {sign : Sign} {m r k : Nat} {e e₁ e₂ : Int}
    {em₁ em₂ : ExtendedMantissa}
    (h₁ : shiftToTargetExponent Format.binary64 m e .exact = (em₁, e₁))
    (hr : em₁.roundedMantissa = r)
    (h₂ : shiftToTargetExponent Format.binary64 r e₁ .exact = (em₂, e₂))
    (hk : em₂.mantissa = k) :
    roundWithAccuracy Format.binary64 sign m e .exact =
      if h : k = 0 then .zero sign else .finite sign k e₂ (Nat.pos_of_ne_zero h) := by
  subst hr hk
  rw [roundWithAccuracy, h₁]
  dsimp only
  rw [h₂]

/-- A mantissa rounded to fifty-three binary digits. -/
def roundedUnits (m : Nat) (e : Int) : Nat := roundDiv m (2 ^ (roundedExponent m e - e).toNat)

theorem le_roundedExponent {m : Nat} {e : Int} (hm : 2 ^ 52 ≤ m) : e ≤ roundedExponent m e := by
  have h : 52 ≤ m.log2 := (Nat.le_log2 (by omega)).mpr hm
  unfold roundedExponent
  omega

theorem roundedUnits_le (m : Nat) (e : Int) : roundedUnits m e ≤ 2 ^ 53 := by
  apply roundDiv_le_of_le_mul (Nat.two_pow_pos _)
  rw [← pow_add]
  have h1 : m < 2 ^ (m.log2 + 1) := Nat.lt_log2_self
  have h2 : m.log2 + 1 ≤ 53 + (roundedExponent m e - e).toNat := by
    unfold roundedExponent
    omega
  exact h1.le.trans (Nat.pow_le_pow_right (by omega) h2)

theorem le_roundedUnits {m : Nat} {e : Int} (hm : 2 ^ 52 ≤ m) (h : roundedExponent m e ≠ -1074) :
    2 ^ 52 ≤ roundedUnits m e := by
  apply le_roundDiv_of_mul_le (Nat.two_pow_pos _)
  rw [← pow_add]
  have h1 : 2 ^ m.log2 ≤ m := Nat.log2_self_le (by omega)
  have h2 : 52 + (roundedExponent m e - e).toNat ≤ m.log2 := by
    have h3 : 52 ≤ m.log2 := (Nat.le_log2 (by omega)).mpr hm
    unfold roundedExponent at *
    omega
  exact (Nat.pow_le_pow_right (by omega) h2).trans h1

/-- A mantissa of at most fifty-three binary digits that is full, or at the least exponent, keeps
its exponent. -/
theorem roundedExponent_eq_self {r : Nat} {t : Int} (hpos : 0 < r) (hlt : r < 2 ^ 53)
    (ht : -1074 ≤ t) (hfull : t ≠ -1074 → 2 ^ 52 ≤ r) : roundedExponent r t = t := by
  have h : r.log2 < 53 := (Nat.log2_lt hpos.ne').mpr hlt
  unfold roundedExponent
  by_cases hbot : t = -1074
  · omega
  · have h52 : 52 ≤ r.log2 := (Nat.le_log2 hpos.ne').mpr (hfull hbot)
    omega

theorem roundedExponent_two_pow {t : Int} (ht : -1074 ≤ t) :
    roundedExponent (2 ^ 53) t = t + 1 := by
  have h : Nat.log2 (2 ^ 53) = 53 := by decide
  rw [roundedExponent, h]
  omega

/-- A mantissa is rounded once; then it is only shifted to its own exponent. -/
theorem roundWithAccuracy_rounded {m k : Nat} {e e' : Int} (hm : 2 ^ 52 ≤ m)
    (hexp' : roundedExponent (roundedUnits m e) (roundedExponent m e) = e')
    (hle : roundedExponent m e ≤ e')
    (hk : roundedUnits m e / 2 ^ (e' - roundedExponent m e).toNat = k) :
    roundWithAccuracy Format.binary64 .positive m e .exact =
      if h : k = 0 then .zero .positive else .finite .positive k e' (Nat.pos_of_ne_zero h) := by
  have hexp := le_roundedExponent (e := e) hm
  have hround : ((⟨m, false, false⟩ : ExtendedMantissa) >>>
      (roundedExponent m e - e).toNat).roundedMantissa = roundedUnits m e :=
    (shifted_shiftRight m _).roundedMantissa
  have h₁ := shiftToTargetExponent_eq m e
  rw [Int.toNat_of_nonneg (sub_nonneg.mpr hexp), add_sub_cancel] at h₁
  have h₂ := shiftToTargetExponent_eq (roundedUnits m e) (roundedExponent m e)
  rw [hexp', Int.toNat_of_nonneg (sub_nonneg.mpr hle), add_sub_cancel] at h₂
  exact roundWithAccuracy_eq h₁ hround h₂ ((shifted_shiftRight _ _).mantissa.trans hk)

/-- Rounding a mantissa and putting the double together gives the word of the rounded mantissa,
or that of infinity. -/
theorem toNat_pack_round {m : Nat} {e : Int} (hm : 2 ^ 52 ≤ m) :
    (UnpackedFloat.pack Format.binary64
      (roundWithAccuracy Format.binary64 .positive m e .exact)).toNat =
      min (word (roundedUnits m e) (roundedExponent m e)) infinityBits := by
  have hle := roundedUnits_le m e
  have hge : -1074 ≤ roundedExponent m e := le_max_right _ _
  have hmin := le_roundedUnits (e := e) hm
  rcases Nat.eq_zero_or_pos (roundedUnits m e) with hzero | hpos
  · -- the product is too small for any double but zero
    have hexp0 : roundedExponent m e = -1074 := by
      by_contra h
      have := hmin h
      omega
    have hshift : roundedExponent (roundedUnits m e) (roundedExponent m e) = -1074 := by
      rw [hzero, hexp0]
      decide
    rw [roundWithAccuracy_rounded hm hshift hexp0.le (by rw [hzero, Nat.zero_div]), dif_pos rfl,
      hzero, hexp0]
    decide
  · rcases hle.eq_or_lt with htop | hlt
    · -- rounding up to the next power of two moves the exponent by one
      have hshift : roundedExponent (roundedUnits m e) (roundedExponent m e) =
          roundedExponent m e + 1 := by
        rw [htop]
        exact roundedExponent_two_pow hge
      have hn : Normalized (2 ^ 52) (roundedExponent m e + 1) := by
        refine ⟨by norm_num, by norm_num, by omega, .inl le_rfl⟩
      have hhalf : roundedUnits m e / 2 ^ (roundedExponent m e + 1 - roundedExponent m e).toNat =
          2 ^ 52 := by
        rw [htop, add_sub_cancel_left]
        norm_num
      have hword : word (2 ^ 52) (roundedExponent m e + 1) =
          word (roundedUnits m e) (roundedExponent m e) := by
        rw [word, word, htop]
        omega
      rw [roundWithAccuracy_rounded hm hshift (by omega) hhalf, dif_neg hn.mantissa_pos.ne',
        ← hword]
      exact toNat_pack_finite hn.mantissa_pos hn
    · have hn : Normalized (roundedUnits m e) (roundedExponent m e) := by
        refine ⟨hpos, hlt, hge, ?_⟩
        by_cases h : roundedExponent m e = -1074
        · exact .inr h
        · exact .inl (hmin h)
      have hkeep : roundedUnits m e / 2 ^ (roundedExponent m e - roundedExponent m e).toNat =
          roundedUnits m e := by
        rw [sub_self, Int.toNat_zero, pow_zero, Nat.div_one]
      rw [roundWithAccuracy_rounded hm (roundedExponent_eq_self hpos hlt hge hmin) le_rfl hkeep,
        dif_neg hpos.ne']
      exact toNat_pack_finite hpos hn

/-- A mantissa and an exponent stand for a quotient of natural numbers. -/
theorem exists_quotient_of_scaled {m : Nat} (hm : 0 < m) (e : Int) :
    ∃ n d : Nat, 0 < n ∧ 0 < d ∧ (n : ℚ) = m * 2 ^ e * d := by
  rcases le_total 0 e with he | he
  · obtain ⟨k, rfl⟩ := Int.eq_ofNat_of_zero_le he
    refine ⟨m * 2 ^ k, 1, by positivity, one_pos, ?_⟩
    push_cast
    rw [zpow_natCast, mul_one]
  · obtain ⟨k, hk⟩ := Int.eq_ofNat_of_zero_le (by omega : 0 ≤ -e)
    obtain rfl : e = -(k : Int) := by omega
    refine ⟨m, 2 ^ k, hm, by positivity, ?_⟩
    push_cast
    rw [zpow_neg, zpow_natCast]
    field_simp

/-- The exponent that a mantissa is rounded at is that of the quotient it stands for. -/
theorem fits_roundedExponent {m n d : Nat} {e : Int} (hm : 0 < m) (hd : 0 < d)
    (hnd : (n : ℚ) = m * 2 ^ e * d) : Fits n d (roundedExponent m e) := by
  have hd' : (0 : ℚ) < d := by exact_mod_cast hd
  have hlo : (2 : ℚ) ^ (m.log2 : Int) ≤ m := two_pow_log2_le hm
  have hhi : (m : ℚ) < 2 ^ ((m.log2 : Int) + 1) := lt_two_pow_log2 m
  refine ⟨le_max_right _ _, ?_, ?_⟩
  · rw [hnd, mul_comm]
    refine mul_lt_mul_of_pos_left ?_ hd'
    calc (m : ℚ) * 2 ^ e < 2 ^ ((m.log2 : Int) + 1) * 2 ^ e :=
          mul_lt_mul_of_pos_right hhi (by positivity)
      _ = 2 ^ ((m.log2 : Int) + 1 + e) := by rw [← zpow_add₀ (by norm_num)]
      _ ≤ 2 ^ (roundedExponent m e + 53) := by
        apply zpow_le_zpow_right₀ (by norm_num)
        unfold roundedExponent
        omega
  · by_cases h : roundedExponent m e = -1074
    · exact .inl h
    · right
      have ht : roundedExponent m e + 52 = m.log2 + e := by
        unfold roundedExponent at *
        omega
      rw [ht, hnd, zpow_add₀ (by norm_num), mul_comm]
      gcongr

/-- Rounding a mantissa is rounding the ratio that it stands for. -/
theorem word_roundedUnits {m : Nat} {e : Int} (hm : 2 ^ 52 ≤ m) :
    word (roundedUnits m e) (roundedExponent m e) = ratioBits (m * 2 ^ e) := by
  have hpos : 0 < m := lt_of_lt_of_le (by norm_num) hm
  have hexp := le_roundedExponent (e := e) hm
  obtain ⟨n, d, hn, hd, hnd⟩ := exists_quotient_of_scaled hpos e
  have hratio : (m : ℚ) * 2 ^ e = n / d := by
    rw [hnd]
    field_simp
  rw [hratio, ratioBits_div hn hd, quotientBits_eq_word hn hd (fits_roundedExponent hpos hd hnd)]
  congr 1
  -- both count the units of the exponent, of the mantissa and of the quotient
  obtain ⟨a, b, hb, hu, hab⟩ := unitsOf_eq_roundDiv n d hd (roundedExponent m e)
  rw [hu, roundedUnits]
  apply roundDiv_congr (Nat.two_pow_pos _) hb
  obtain ⟨k, hk⟩ := Int.eq_ofNat_of_zero_le (by omega : 0 ≤ roundedExponent m e - e)
  have hek : roundedExponent m e = e + k := by omega
  rw [hek, hnd, zpow_add₀ (by norm_num), zpow_natCast] at hab
  have h2 : (0 : ℚ) < d * 2 ^ e := by positivity
  have h3 : (m : ℚ) * b = a * 2 ^ k := by
    apply mul_right_cancel₀ h2.ne'
    linear_combination -hab
  rw [hk, Int.toNat_natCast]
  exact_mod_cast h3

/-! ## Products -/

/-- The double of a word. -/
def ofWord (w : Nat) : Float := Float.ofBits (UInt64.ofNat w)

theorem toBits_ofWord {w : Nat} (hw : w ≤ infinityBits) : (ofWord w).toBits.toNat = w := by
  rcases hw.lt_or_eq with h | rfl
  · exact toBits_ofBits h
  · decide

theorem eq_of_toBits {x y : Float} (h : x.toBits.toNat = y.toBits.toNat) : x = y := by
  apply parts_injective
  have hx : x.toBits = y.toBits := UInt64.toNat_inj.mp h
  show unpack Format.binary64 x.toBits.toBitVec = unpack Format.binary64 y.toBits.toBitVec
  rw [hx]

theorem parts_ofWord {w : Nat} (hpos : 0 < w) (hw : w < infinityBits) :
    parts (ofWord w) =
      .finite .positive (mantissaOf w) (exponentOf w) (normalized_of_pos hpos).mantissa_pos := by
  have h := parts_ofBits_word (normalized_of_pos hpos) (exponentOf_le hw)
  rwa [word_mantissaOf] at h

/-- The product of two positive doubles, the second of which has a full mantissa, is the double
nearest to the product of their ratios. -/
theorem ofWord_mul {a b : Nat} (ha : 0 < a) (ha' : a < infinityBits) (hb : 2 ^ 52 ≤ mantissaOf b)
    (hb' : b < infinityBits) :
    ofWord a * ofWord b = ofWord (min (ratioBits (ratioOf a * ratioOf b)) infinityBits) := by
  have hbpos : 0 < b := by
    by_contra h0
    have : b = 0 := by omega
    subst this
    simp [mantissaOf] at hb
  have hprod : 2 ^ 52 ≤ mantissaOf a * mantissaOf b :=
    hb.trans (Nat.le_mul_of_pos_left _ (normalized_of_pos ha).mantissa_pos)
  have hsize : ratioOf a * ratioOf b =
      ((mantissaOf a * mantissaOf b : Nat) : ℚ) * 2 ^ (exponentOf a + exponentOf b) := by
    rw [ratioOf, ratioOf, zpow_add₀ (by norm_num)]
    push_cast
    ring
  apply eq_of_toBits
  rw [toBits_ofWord (min_le_right _ _), hsize, ← word_roundedUnits hprod, ← toNat_pack_round hprod]
  show (UnpackedFloat.pack Format.binary64
    (UnpackedFloat.mul Format.binary64 (parts (ofWord a)) (parts (ofWord b)))).toNat = _
  rw [parts_ofWord ha ha', parts_ofWord hbpos hb']
  rfl

/-! ## Scaled ratios within a bound -/

theorem exceeds_ofWord {w : Nat} (hw : w ≤ infinityBits) (bound : ℚ) :
    exceeds (ofWord w) bound ↔ w = infinityBits ∨ bound < ratioOf w := by
  unfold exceeds
  rcases hw.lt_or_eq with h | rfl
  · rw [ofWord, toRat?_ofBits h]
    simp [h.ne]
  · rw [ofWord, toRat?_infinity]
    simp only [true_or, iff_true, decide_eq_true_eq]
    decide

theorem exceeds_ofWord_of_le {a b : Nat} (hb : b ≤ infinityBits) (h : a ≤ b) {bound : ℚ}
    (ha : exceeds (ofWord a) bound) : exceeds (ofWord b) bound := by
  rw [exceeds_ofWord hb]
  rcases (exceeds_ofWord (h.trans hb) bound).mp ha with rfl | hlt
  · exact .inl (le_antisymm hb h)
  · exact .inr (hlt.trans_le (ratioOf_le_ratioOf h))

/-- A double from one up, which has a full mantissa. -/
def IsFull (size : Float) : Prop :=
  ∃ w, size = ofWord w ∧ w < infinityBits ∧ 2 ^ 52 ≤ mantissaOf w ∧ 1 ≤ ratioOf w

/-- A ratio scaled by a size does not exceed a bound. -/
def Within (size : Float) (bound q : ℚ) : Prop :=
  ∃ x, ofRat? q = some x ∧ exceeds (x * size) bound = false

theorem IsFull.isFinite {size : Float} (h : IsFull size) : size.isFinite := by
  obtain ⟨w, rfl, hw, hm, -⟩ := h
  have hpos : 0 < w := by
    by_contra h0
    have : w = 0 := by omega
    subst this
    simp [mantissaOf] at hm
  rw [isFinite_iff_parts, parts_ofWord hpos hw]
  rfl

theorem Within.zero {size : Float} (hsize : IsFull size) {bound : ℚ} (hbound : 0 ≤ bound) :
    Within size bound 0 := by
  refine ⟨0, ofRat?_zero, ?_⟩
  have h : toRat? (0 * size) = some 0 := toRat?_of_beq_zero (beq_zero_mul (by decide) hsize.isFinite)
  rw [exceeds, h]
  simpa using hbound

/-- What is smaller than a ratio within the bound is within the bound. -/
theorem Within.of_le {size : Float} (hsize : IsFull size) {bound p q : ℚ} (hbound : 0 ≤ bound)
    (hp : 0 ≤ p) (hpq : p ≤ q) (h : Within size bound q) : Within size bound p := by
  rcases hp.eq_or_lt with rfl | hp
  · exact .zero hsize hbound
  have hfull := hsize
  obtain ⟨w, rfl, hw, hm, -⟩ := hsize
  obtain ⟨y, hy, hyb⟩ := h
  have hbits := ratioBits_le_ratioBits hp hpq
  rw [ofRat?_of_pos (hp.trans_le hpq)] at hy
  split at hy
  · cases hy
  · next hlt =>
    cases hy
    have hq : ratioBits q < infinityBits := not_le.mp hlt
    refine ⟨_, by rw [ofRat?_of_pos hp, if_neg (not_le.mpr (hbits.trans_lt hq))], ?_⟩
    rcases Nat.eq_zero_or_pos (ratioBits p) with h0 | hpos
    · -- the smaller ratio rounds to zero
      have hz := Within.zero hfull hbound
      obtain ⟨x, hx, hxb⟩ := hz
      rw [ofRat?_zero] at hx
      cases hx
      rw [h0]
      exact hxb
    · rw [Bool.eq_false_iff] at hyb ⊢
      intro hex
      apply hyb
      rw [← ofWord] at hex ⊢
      rw [ofWord_mul hpos (hbits.trans_lt hq) hm hw] at hex
      rw [ofWord_mul (hpos.trans_le hbits) hq hm hw]
      refine exceeds_ofWord_of_le (min_le_right _ _) (min_le_min_right _ ?_) hex
      have hsizes : 0 < ratioOf (ratioBits p) * ratioOf w := by
        have h1 : 0 < mantissaOf (ratioBits p) := (normalized_of_pos hpos).mantissa_pos
        have h2 : 0 < mantissaOf w := lt_of_lt_of_le (by norm_num) hm
        rw [ratioOf, ratioOf]
        positivity
      exact ratioBits_le_ratioBits hsizes
        (mul_le_mul_of_nonneg_right (ratioOf_le_ratioOf hbits) (ratioOf_nonneg w))

/-- A ratio within a bound is small: no larger than any double beyond the bound. -/
theorem Within.le {size : Float} (hsize : IsFull size) {bound c q : ℚ} (hc : 0 < c)
    (hexact : ratioOf (ratioBits c) = c) (hbound : bound < c) (h : Within size bound q) :
    q ≤ c := by
  by_contra hlt
  have hq : c < q := not_le.mp hlt
  obtain ⟨w, rfl, hw, hm, hone⟩ := hsize
  obtain ⟨y, hy, hyb⟩ := h
  have hbits := ratioBits_le_ratioBits hc hq.le
  have hpos : 0 < ratioBits c := by
    by_contra h0
    rw [show ratioBits c = 0 by omega] at hexact
    norm_num [ratioOf, mantissaOf] at hexact
    exact hc.ne hexact
  rw [ofRat?_of_pos (hc.trans hq)] at hy
  split at hy
  · cases hy
  · next hfinite =>
    cases hy
    rw [← ofWord, ofWord_mul (hpos.trans_le hbits) (not_le.mp hfinite) hm hw,
      Bool.eq_false_iff] at hyb
    apply hyb
    rw [exceeds_ofWord (min_le_right _ _)]
    -- scaling does not make the ratio smaller
    have hscaled : c ≤ ratioOf (ratioBits q) * ratioOf w := by
      calc c = ratioOf (ratioBits c) := hexact.symm
        _ ≤ ratioOf (ratioBits q) := ratioOf_le_ratioOf hbits
        _ ≤ ratioOf (ratioBits q) * ratioOf w :=
          le_mul_of_one_le_right (ratioOf_nonneg _) hone
    have hword := ratioOf_le_ratioOf (ratioBits_le_ratioBits hc hscaled)
    rw [hexact] at hword
    generalize ratioBits (ratioOf (ratioBits q) * ratioOf w) = product at hword ⊢
    by_cases htop : infinityBits ≤ product
    · left
      rw [min_eq_right htop]
    · right
      rw [min_eq_left (not_le.mp htop).le]
      exact hbound.trans_le hword

end Intonation.Double
