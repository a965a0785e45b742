import Intonation.Proofs.Double.Zero

/-!
# Doubles of opposite signs

Rounding to a double does not look at the sign. The doubles nearest to a ratio and to its opposite
differ in the sign alone, and so do their products with any other double: where one product is too
small for any double but zero, so is the other.

## Main definitions

* `Opposite`: the same magnitude with the other sign

## Main statements

* `unpack_neg`: words that differ in the sign bit alone
* `Opposite.mul`: products with opposite doubles
* `exists_ofRat?_neg`: the double nearest to the opposite of a ratio
-/

namespace Intonation.Double
open Float.Model Float.Model.UnpackedFloat

/-! ## Signs of words -/

/-- Taking apart words that differ in the sign bit alone. -/
theorem unpack_neg {b c : BitVec 64} (hrest : c.toNat % 2 ^ 63 = b.toNat % 2 ^ 63)
    (hsign : c.toNat / 2 ^ 63 ≠ b.toNat / 2 ^ 63) :
    unpack Format.binary64 c = (unpack Format.binary64 b).neg := by
  have hexponent : @unpackExponent Format.binary64 c = @unpackExponent Format.binary64 b := by
    apply BitVec.eq_of_toNat_eq
    rw [toNat_unpackExponent, toNat_unpackExponent]
    omega
  have hmantissa : @unpackMantissa Format.binary64 c = @unpackMantissa Format.binary64 b := by
    apply BitVec.eq_of_toNat_eq
    rw [toNat_unpackMantissa, toNat_unpackMantissa]
    omega
  have hflip : ∀ v w : BitVec 1, v.toNat ≠ w.toNat → Sign.ofBitVec v = -Sign.ofBitVec w := by
    intro v w hne
    rcases BitVec.eq_zero_or_eq_one v with rfl | rfl <;>
      rcases BitVec.eq_zero_or_eq_one w with rfl | rfl
    · exact absurd rfl hne
    · rfl
    · rfl
    · exact absurd rfl hne
  have hopposite := hflip (@unpackSign Format.binary64 c) (@unpackSign Format.binary64 b)
    (by rwa [toNat_unpackSign, toNat_unpackSign])
  by_cases hfull : @unpackExponent Format.binary64 b = -1#11
  · rw [unpack_of_full hfull, unpack_of_full (hexponent.trans hfull), hmantissa, hopposite,
      apply_ite UnpackedFloat.neg]
    rfl
  -- the mantissa cannot be rewritten below the proof that it is positive
  by_cases hempty : @unpackExponent Format.binary64 b = 0#11
  · by_cases hzero : @unpackMantissa Format.binary64 b = 0#52
    · rw [unpack_of_zero hempty hzero,
        unpack_of_zero (hexponent.trans hempty) (hmantissa.trans hzero), hopposite]
      rfl
    · rw [unpack_of_subnormal hempty hzero,
        unpack_of_subnormal (hexponent.trans hempty) (hmantissa ▸ hzero), hopposite]
      exact finite_congr (by rw [hmantissa]) rfl
  · rw [unpack_of_normal hfull hempty, unpack_of_normal (hexponent ▸ hfull) (hexponent ▸ hempty),
      hopposite]
    exact finite_congr (by rw [hmantissa]) (by rw [hexponent])

/-- Putting together parts of the opposite sign. -/
theorem unpack_pack_neg (u : UnpackedFloat) :
    unpack Format.binary64 (UnpackedFloat.pack Format.binary64 u.neg) =
      (unpack Format.binary64 (UnpackedFloat.pack Format.binary64 u)).neg := by
  have hcomponents : ∀ (s : Sign) (e : BitVec 11) (f : BitVec 52),
      unpack Format.binary64 (packComponents Format.binary64 (-s) e f) =
        (unpack Format.binary64 (packComponents Format.binary64 s e f)).neg := by
    intro s e f
    have he : e.toNat < 2 ^ 11 := e.isLt
    have hf : f.toNat < 2 ^ 52 := f.isLt
    have hbit : (-s).toBitVec.toNat + s.toBitVec.toNat = 1 := by cases s <;> rfl
    refine unpack_neg ?_ ?_ <;> rw [toNat_packComponents, toNat_packComponents] <;> omega
  cases u with
  | notANumber => rfl
  | infinity s => exact hcomponents s _ _
  | zero s => exact hcomponents s _ _
  | finite s m e hm =>
    change unpack _ (UnpackedFloat.pack _ (.finite (-s) m e hm)) = _
    unfold UnpackedFloat.pack
    dsimp only
    split_ifs
    · exact hcomponents s _ _
    · exact hcomponents s _ _
    · exact hcomponents s _ _

/-! ## Signs of products -/

theorem roundWithAccuracy_neg (s : Sign) (m : Nat) (e : Int) (a : Accuracy) :
    roundWithAccuracy Format.binary64 (-s) m e a =
      (roundWithAccuracy Format.binary64 s m e a).neg := by
  unfold roundWithAccuracy
  dsimp only
  rw [apply_dite UnpackedFloat.neg]
  rfl

theorem mul_neg_parts (u v : UnpackedFloat) :
    UnpackedFloat.mul Format.binary64 u v.neg = (UnpackedFloat.mul Format.binary64 u v).neg := by
  have hsign : ∀ s t : Sign, s * -t = -(s * t) := by
    intro s t
    cases s <;> cases t <;> rfl
  cases u <;> cases v
  case infinity.infinity | infinity.finite | finite.infinity =>
    exact congrArg UnpackedFloat.infinity (hsign _ _)
  case zero.zero | zero.finite | finite.zero => exact congrArg UnpackedFloat.zero (hsign _ _)
  case finite.finite s m e _ t n f _ =>
    exact (congrArg (roundWithAccuracy _ · (m * n) (e + f) .exact) (hsign s t)).trans
      (roundWithAccuracy_neg _ _ _ _)
  all_goals rfl

/-! ## Opposite doubles -/

/-- The same magnitude with the other sign. -/
def Opposite (x y : Float) : Prop := parts y = (parts x).neg

variable {x y : Float}

theorem Opposite.mul (h : Opposite x y) (z : Float) : Opposite (z * x) (z * y) := by
  rw [Opposite, parts_mul, parts_mul, h, mul_neg_parts, unpack_pack_neg]

theorem Opposite.beq_zero (h : Opposite x y) (hx : x == 0) : y == 0 := by
  obtain ⟨s, hs⟩ := beq_zero_iff.mp hx
  rw [Opposite, hs] at h
  exact beq_zero_iff.mpr ⟨_, h⟩

theorem Opposite.symm (h : Opposite x y) : Opposite y x := by
  have hsign : ∀ s : Sign, - -s = s := by
    intro s
    cases s <;> rfl
  rw [Opposite, h]
  rcases parts x with s | _ | s | ⟨s, m, e, hm⟩
  · exact congrArg UnpackedFloat.infinity (hsign s).symm
  · rfl
  · exact congrArg UnpackedFloat.zero (hsign s).symm
  · exact congrArg (UnpackedFloat.finite · m e hm) (hsign s).symm

/-- The doubles of a word and of the word with the sign bit set. -/
theorem opposite_ofBits {w : Nat} (hw : w < infinityBits) :
    Opposite (Float.ofBits (UInt64.ofNat w)) (Float.ofBits (UInt64.ofNat (1 <<< 63 + w))) := by
  have hword : (Float.ofBits (UInt64.ofNat w)).toModel.toBits.toBitVec.toNat = w :=
    toBits_ofBits hw
  have hnegative : (Float.ofBits (UInt64.ofNat (1 <<< 63 + w))).toModel.toBits.toBitVec.toNat =
      1 <<< 63 + w := toBits_ofBits_negative hw
  rw [infinityBits_eq] at hw
  refine unpack_neg ?_ ?_ <;> rw [hword, hnegative] <;> omega

/-- The double nearest to the opposite of a ratio. -/
theorem exists_ofRat?_neg {q : ℚ} (hq : q ≠ 0) (h : ofRat? q = some x) :
    ∃ y, ofRat? (-q) = some y ∧ Opposite x y := by
  rw [ofRat?, if_neg hq] at h
  simp only [Option.ite_none_left_eq_some, Option.some.injEq, not_le] at h
  obtain ⟨hlt, rfl⟩ := h
  rw [ofRat?, if_neg (neg_ne_zero.mpr hq), Rat.num_neg_eq_neg_num, Int.natAbs_neg,
    Rat.den_neg_eq_den, if_neg (not_le.mpr hlt)]
  refine ⟨_, rfl, ?_⟩
  rcases lt_or_gt_of_ne hq with hneg | hpos
  · rw [if_pos hneg, if_neg (not_lt.mpr (neg_nonneg.mpr hneg.le))]
    exact (opposite_ofBits hlt).symm
  · rw [if_neg (not_lt.mpr hpos.le), if_pos (neg_lt_zero.mpr hpos)]
    exact opposite_ofBits hlt

end Intonation.Double
