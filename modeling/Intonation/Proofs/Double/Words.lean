import Intonation.Double.Basic
import Mathlib.Tactic

/-!
# Doubles as words

A double is a word of sixty-four bits: a sign, an exponent field of eleven bits and a fraction
of fifty-two. This module reads the fields off a word, shows that taking a double apart and
putting it together again changes nothing, and gives the word of a positive double as
`word mantissa exponent`.

## Main statements

* `unpack_of_full`, `unpack_of_zero`, `unpack_of_subnormal`, `unpack_of_normal`: what a word is
  taken apart into, by its exponent field
* `pack_unpack`, `ofModel_pack_parts`: taking apart and putting together
* `toNat_pack_finite`: the word of a positive double with a normalized mantissa
* `finite?_ofBits_word`: the mantissa and the exponent read off a word
-/

namespace Intonation.Double
open Float.Model Float.Model.UnpackedFloat

/-! ## Fields of a word -/

theorem toNat_unpackMantissa (b : BitVec 64) :
    (@unpackMantissa Format.binary64 b).toNat = b.toNat % 2 ^ 52 := by
  simp [unpackMantissa]

theorem toNat_unpackExponent (b : BitVec 64) :
    (@unpackExponent Format.binary64 b).toNat = b.toNat / 2 ^ 52 % 2 ^ 11 := by
  simp [unpackExponent, Nat.shiftRight_eq_div_pow]

theorem toNat_unpackSign (b : BitVec 64) :
    (@unpackSign Format.binary64 b).toNat = b.toNat / 2 ^ 63 := by
  have hlt : b.toNat < 2 ^ 64 := b.isLt
  delta unpackSign
  simp [Nat.shiftRight_eq_div_pow]
  omega

theorem toNat_packComponents (sign : Sign) (e : BitVec 11) (m : BitVec 52) :
    (packComponents Format.binary64 sign e m).toNat =
      sign.toBitVec.toNat * 2 ^ 63 + e.toNat * 2 ^ 52 + m.toNat := by
  simp only [packComponents]
  rw [BitVec.toNat_append, BitVec.toNat_append, ← Nat.shiftLeft_add_eq_or_of_lt m.isLt,
    ← Nat.shiftLeft_add_eq_or_of_lt e.isLt]
  simp only [Nat.shiftLeft_eq]
  omega

theorem toBitVec_ofBitVec (v : BitVec 1) : (Sign.ofBitVec v).toBitVec = v := by
  have h : v = 0#1 ∨ v = 1#1 := by
    have hlt : v.toNat < 2 := v.isLt
    rcases (by omega : v.toNat = 0 ∨ v.toNat = 1) with h | h
    · exact .inl (BitVec.eq_of_toNat_eq h)
    · exact .inr (BitVec.eq_of_toNat_eq h)
  rcases h with rfl | rfl <;> rfl

/-- A word is its own sign, exponent field and fraction put together. -/
theorem packComponents_fields {b : BitVec 64} {e : BitVec 11} {m : BitVec 52}
    (he : @unpackExponent Format.binary64 b = e)
    (hm : @unpackMantissa Format.binary64 b = m) :
    packComponents Format.binary64 (Sign.ofBitVec (@unpackSign Format.binary64 b)) e m
      = b := by
  subst he hm
  apply BitVec.eq_of_toNat_eq
  rw [toNat_packComponents, toBitVec_ofBitVec, toNat_unpackSign, toNat_unpackExponent,
    toNat_unpackMantissa]
  have hlt : b.toNat < 2 ^ 64 := b.isLt
  omega

theorem toNat_leadingOne (v : BitVec 52) : (1#1 ++ v).toNat = 2 ^ 52 + v.toNat := by
  rw [BitVec.toNat_append, ← Nat.shiftLeft_add_eq_or_of_lt v.isLt]
  simp [Nat.shiftLeft_eq]

theorem log2_eq_of_bounds {m k : Nat} (hlo : 2 ^ k ≤ m) (hhi : m < 2 ^ (k + 1)) : m.log2 = k := by
  have hm : m ≠ 0 := by
    have := Nat.two_pow_pos k
    omega
  exact (Nat.log2_eq_iff hm).mpr ⟨hlo, hhi⟩

/-! ## Taking apart -/

theorem finite_congr {s : Sign} {m n : Nat} {e f : Int} {hm : 0 < m} {hn : 0 < n} (h : m = n)
    (h' : e = f) : UnpackedFloat.finite s m e hm = .finite s n f hn := by
  subst h h'
  rfl

theorem toNat_pos_of_ne_zero {v : BitVec 52} (h : v ≠ 0#52) : 0 < v.toNat :=
  Nat.pos_of_ne_zero fun h0 => h (BitVec.eq_of_toNat_eq h0)

section
variable {b : BitVec 64}

/-- A full exponent field stands for an infinity, or with a fraction for no number. -/
theorem unpack_of_full (hexp : @unpackExponent Format.binary64 b = -1#11) :
    unpack Format.binary64 b = if @unpackMantissa Format.binary64 b = 0#52 then
      .infinity (Sign.ofBitVec (@unpackSign Format.binary64 b)) else .notANumber := by
  delta UnpackedFloat.unpack
  dsimp only
  rw [if_pos hexp]

theorem unpack_of_zero (hexp : @unpackExponent Format.binary64 b = 0#11)
    (hfrac : @unpackMantissa Format.binary64 b = 0#52) :
    unpack Format.binary64 b = .zero (Sign.ofBitVec (@unpackSign Format.binary64 b)) := by
  delta UnpackedFloat.unpack
  dsimp only
  rw [if_neg (by rw [hexp]; decide), if_pos hexp, dif_pos hfrac]

/-- An empty exponent field stands for the least exponent, and the fraction is the mantissa. -/
theorem unpack_of_subnormal (hexp : @unpackExponent Format.binary64 b = 0#11)
    (hfrac : @unpackMantissa Format.binary64 b ≠ 0#52) :
    unpack Format.binary64 b = .finite (Sign.ofBitVec (@unpackSign Format.binary64 b))
      (@unpackMantissa Format.binary64 b).toNat (-1074) (toNat_pos_of_ne_zero hfrac) := by
  have hbias : Format.binary64.exponentBias = 1023 := by decide
  delta UnpackedFloat.unpack
  dsimp only
  rw [hbias, if_neg (by rw [hexp]; decide), if_pos hexp, dif_neg hfrac]
  refine finite_congr rfl ?_
  rw [hexp]
  rfl

/-- Other exponent fields stand for their exponents, and the mantissa has a leading one. -/
theorem unpack_of_normal (hfull : @unpackExponent Format.binary64 b ≠ -1#11)
    (hempty : @unpackExponent Format.binary64 b ≠ 0#11) :
    unpack Format.binary64 b = .finite (Sign.ofBitVec (@unpackSign Format.binary64 b))
      (2 ^ 52 + (@unpackMantissa Format.binary64 b).toNat)
      ((@unpackExponent Format.binary64 b).toNat - 1075)
      (Nat.add_pos_left (Nat.two_pow_pos 52) _) := by
  have hbias : Format.binary64.exponentBias = 1023 := by decide
  delta UnpackedFloat.unpack
  dsimp only
  rw [hbias, if_neg hfull, if_neg hempty]
  exact finite_congr (toNat_leadingOne _) rfl

end

/-! ## Putting together -/

/-- A mantissa of fifty-three binary digits, or a smaller one at the least exponent. -/
structure Normalized (m : Nat) (e : Int) : Prop where
  mantissa_pos : 0 < m
  mantissa_lt : m < 2 ^ 53
  exponent_ge : -1074 ≤ e
  leading : 2 ^ 52 ≤ m ∨ e = -1074

/-- The word of the positive double with a normalized mantissa. -/
def word (m : Nat) (e : Int) : Nat := (e + 1074).toNat * 2 ^ 52 + m

theorem infinityBits_eq : infinityBits = 2047 * 2 ^ 52 := by decide

theorem word_lt_infinityBits {m : Nat} {e : Int} (h : Normalized m e) (he : e ≤ 971) :
    word m e < infinityBits := by
  have := h.mantissa_lt
  have := h.exponent_ge
  rw [infinityBits_eq, word]
  omega

theorem infinityBits_le_word {m : Nat} {e : Int} (h : Normalized m e) (he : 971 < e) :
    infinityBits ≤ word m e := by
  have := h.leading
  rw [infinityBits_eq, word]
  omega

theorem toNat_biasedExponent (e : Int) : (e + (Format.binary64.exponentBias : Int) +
    (Format.binary64.mantissaBitsWithoutImplicit : Int)).toNat = (e + 1075).toNat := by
  have hbias : Format.binary64.exponentBias = 1023 := by decide
  rw [hbias]
  show (e + 1023 + 52).toNat = _
  omega

/-- Putting together a finite double gives its sign bit and its word. -/
theorem toNat_pack_of_le {s : Sign} {m : Nat} {e : Int} (hm : 0 < m) (h : Normalized m e)
    (he : e ≤ 971) : (UnpackedFloat.pack Format.binary64 (.finite s m e hm)).toNat =
      s.toBitVec.toNat * 2 ^ 63 + word m e := by
  have hlt := h.mantissa_lt
  have hge := h.exponent_ge
  have hfield := toNat_biasedExponent e
  delta UnpackedFloat.pack
  dsimp only
  simp only [hfield]
  rw [if_neg (show ¬ 2 ^ 11 ≤ (e + 1075).toNat + 1 by omega)]
  by_cases hlead : 2 ^ 52 ≤ m
  · have hlog : m.log2 = 52 := log2_eq_of_bounds hlead (by omega)
    rw [if_pos (by rw [hlog]; decide), toNat_packComponents, BitVec.toNat_ofNat,
      BitVec.toNat_ofNat, word]
    show _ + (e + 1075).toNat % 2 ^ 11 * 2 ^ 52 + m % 2 ^ 52 = _
    omega
  · have hmin : e = -1074 := h.leading.resolve_left hlead
    have hlog : m.log2 < 52 := (Nat.log2_lt hm.ne').mpr (by omega)
    have hbits : Format.binary64.mantissaBits = 53 := by decide
    rw [if_neg (by rw [hbits]; omega), toNat_packComponents, BitVec.toNat_ofNat, word, hmin]
    show _ + 0 * _ + m % 2 ^ 52 = _
    omega

/-- Putting together a positive double gives its word, or that of infinity when the exponent is
too large. -/
theorem toNat_pack_finite {m : Nat} {e : Int} (hm : 0 < m) (h : Normalized m e) :
    (UnpackedFloat.pack Format.binary64 (.finite .positive m e hm)).toNat =
      min (word m e) infinityBits := by
  by_cases hbig : 971 < e
  · have hfield := toNat_biasedExponent e
    have hpacked : UnpackedFloat.pack Format.binary64 (.finite .positive m e hm) =
        packedInfinity Format.binary64 .positive := by
      delta UnpackedFloat.pack
      dsimp only
      simp only [hfield]
      exact if_pos (show 2 ^ 11 ≤ (e + 1075).toNat + 1 by omega)
    rw [hpacked, min_eq_right (infinityBits_le_word h hbig)]
    decide
  · rw [toNat_pack_of_le hm h (not_lt.mp hbig),
      min_eq_left (word_lt_infinityBits h (not_lt.mp hbig)).le]
    exact Nat.zero_add _

/-- Putting a word together from its parts gives the word back, unless it is an unusual word
for what is no number. -/
theorem pack_unpack {b : BitVec 64} (hv : Format.binary64.Valid b) :
    UnpackedFloat.pack Format.binary64 (unpack Format.binary64 b) = b := by
  have hfrac := toNat_unpackMantissa b
  have hexp := toNat_unpackExponent b
  have hword : b.toNat < 2 ^ 64 := b.isLt
  by_cases hfull : @unpackExponent Format.binary64 b = -1#11
  · rw [unpack_of_full hfull]
    by_cases hzero : @unpackMantissa Format.binary64 b = 0#52
    · rw [if_pos hzero]
      exact packComponents_fields hfull hzero
    · rw [if_neg hzero]
      exact (hv.eq_packedNaN hfull hzero).symm
  by_cases hempty : @unpackExponent Format.binary64 b = 0#11
  · by_cases hzero : @unpackMantissa Format.binary64 b = 0#52
    · rw [unpack_of_zero hempty hzero]
      exact packComponents_fields hempty hzero
    · have hpos := toNat_pos_of_ne_zero hzero
      have hexp0 : (@unpackExponent Format.binary64 b).toNat = 0 := congrArg BitVec.toNat hempty
      apply BitVec.eq_of_toNat_eq
      rw [unpack_of_subnormal hempty hzero,
        toNat_pack_of_le hpos ⟨hpos, by omega, le_rfl, .inr rfl⟩ (by omega), toBitVec_ofBitVec,
        toNat_unpackSign, word, neg_add_cancel, Int.toNat_zero]
      omega
  · have hmax : (@unpackExponent Format.binary64 b).toNat ≠ 2047 := fun h =>
      hfull (BitVec.eq_of_toNat_eq (by simpa using h))
    have hmin : (@unpackExponent Format.binary64 b).toNat ≠ 0 := fun h =>
      hempty (BitVec.eq_of_toNat_eq (by simpa using h))
    apply BitVec.eq_of_toNat_eq
    rw [unpack_of_normal hfull hempty,
      toNat_pack_of_le _ ⟨by omega, by omega, by omega, .inl (by omega)⟩ (by omega),
      toBitVec_ofBitVec, toNat_unpackSign, word]
    omega

/-- The sign, mantissa and exponent of a double. -/
abbrev parts (x : Float) : UnpackedFloat := x.toModel.unpack

theorem mk_congr {a b : UInt64} {ha : Format.binary64.Valid a.toBitVec}
    {hb : Format.binary64.Valid b.toBitVec} (h : a = b) : Float.Model.mk a ha = .mk b hb := by
  subst h
  rfl

theorem ofModel_pack_parts (x : Float) : Float.ofModel (.pack (parts x)) = x := by
  obtain ⟨bits, hv⟩ := x
  have h : UnpackedFloat.pack Format.binary64 (unpack Format.binary64 bits.toBitVec) =
    bits.toBitVec := pack_unpack hv
  exact congrArg Float.ofModel (mk_congr (congrArg UInt64.ofBitVec h))

theorem parts_injective {x y : Float} (h : parts x = parts y) : x = y := by
  rw [← ofModel_pack_parts x, ← ofModel_pack_parts y, h]

/-! ## Words of positive doubles -/

/-- Taking apart the word of a positive double. -/
theorem unpack_word {m : Nat} {e : Int} (h : Normalized m e) (he : e ≤ 971) {b : BitVec 64}
    (hb : b.toNat = word m e) :
    unpack Format.binary64 b = .finite .positive m e h.mantissa_pos := by
  have hlt := h.mantissa_lt
  have hge := h.exponent_ge
  have hpos := h.mantissa_pos
  have hfrac := toNat_unpackMantissa b
  have hexp := toNat_unpackExponent b
  rw [hb, word] at hfrac hexp
  have hsign : @unpackSign Format.binary64 b = 0#1 := by
    apply BitVec.eq_of_toNat_eq
    rw [toNat_unpackSign, hb, word]
    show _ = 0
    omega
  have hpositive : Sign.ofBitVec (@unpackSign Format.binary64 b) = .positive := by
    rw [hsign]
    rfl
  by_cases hlead : 2 ^ 52 ≤ m
  · have hfull : @unpackExponent Format.binary64 b ≠ -1#11 := by
      intro hfull
      have hnat : (@unpackExponent Format.binary64 b).toNat = 2047 := by
        rw [hfull]
        rfl
      omega
    have hempty : @unpackExponent Format.binary64 b ≠ 0#11 := by
      intro hempty
      have hnat : (@unpackExponent Format.binary64 b).toNat = 0 := congrArg BitVec.toNat hempty
      omega
    rw [unpack_of_normal hfull hempty, hpositive]
    exact finite_congr (by omega) (by omega)
  · have hmin : e = -1074 := h.leading.resolve_left hlead
    have hempty : @unpackExponent Format.binary64 b = 0#11 := by
      apply BitVec.eq_of_toNat_eq
      show _ = 0
      omega
    have hzero : @unpackMantissa Format.binary64 b ≠ 0#52 := by
      intro hzero
      have hnat : (@unpackMantissa Format.binary64 b).toNat = 0 := congrArg BitVec.toNat hzero
      omega
    rw [unpack_of_subnormal hempty hzero, hpositive]
    exact finite_congr (by omega) hmin.symm

/-- A word whose exponent field is not full is kept as it is. -/
theorem toBits_ofBits_of_field {w : Nat} (hw : w < 2 ^ 64) (hfield : w / 2 ^ 52 % 2 ^ 11 ≠ 2047) :
    (Float.ofBits (UInt64.ofNat w)).toBits.toNat = w := by
  have hv : Format.binary64.Valid (UInt64.ofNat w).toBitVec := by
    constructor
    intro hexp _
    have h := toNat_unpackExponent (UInt64.ofNat w).toBitVec
    have hw' : (UInt64.ofNat w).toBitVec.toNat = w := by simpa using Nat.mod_eq_of_lt hw
    rw [hexp, hw', show (-1#11 : BitVec 11).toNat = 2047 by decide] at h
    exact absurd h.symm hfield
  show (UnpackedFloat.pack Format.binary64
    (unpack Format.binary64 (UInt64.ofNat w).toBitVec)).toNat = w
  rw [pack_unpack hv]
  simpa using Nat.mod_eq_of_lt hw

/-- A word below that of infinity is kept as it is. -/
theorem toBits_ofBits {w : Nat} (hw : w < infinityBits) :
    (Float.ofBits (UInt64.ofNat w)).toBits.toNat = w := by
  rw [infinityBits_eq] at hw
  exact toBits_ofBits_of_field (by omega) (by omega)

/-- The word of the opposite of a positive double. -/
theorem toBits_ofBits_negative {w : Nat} (hw : w < infinityBits) :
    (Float.ofBits (UInt64.ofNat (1 <<< 63 + w))).toBits.toNat = 1 <<< 63 + w := by
  rw [infinityBits_eq] at hw
  simp only [Nat.shiftLeft_eq]
  exact toBits_ofBits_of_field (by omega) (by omega)

/-- The parts of the double with a given word. -/
theorem parts_ofBits_word {m : Nat} {e : Int} (h : Normalized m e) (he : e ≤ 971) :
    parts (Float.ofBits (UInt64.ofNat (word m e))) = .finite .positive m e h.mantissa_pos :=
  unpack_word h he (toBits_ofBits (word_lt_infinityBits h he))

/-- The mantissa and the exponent are read off a word. -/
theorem finite?_ofBits_word {m : Nat} {e : Int} (h : Normalized m e) (he : e ≤ 971) :
    finite? (Float.ofBits (UInt64.ofNat (word m e))) = some ⟨false, m, e⟩ := by
  have hlt := h.mantissa_lt
  have hge := h.exponent_ge
  have hlead := h.leading
  unfold finite?
  rw [toBits_ofBits (word_lt_infinityBits h he), word]
  simp only [Nat.shiftRight_eq_div_pow, Nat.shiftLeft_eq]
  rw [if_neg (by omega)]
  split
  · simp only [Option.some.injEq, Finite.mk.injEq, decide_eq_false_iff_not]
    omega
  · simp only [Option.some.injEq, Finite.mk.injEq, decide_eq_false_iff_not]
    omega

end Intonation.Double
