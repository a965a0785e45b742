import Intonation.Proofs.Double.Zero
import Intonation.Proofs.Double.Rounding

/-!
# Finite doubles in arithmetic

Arithmetic on finite doubles may leave the range, and then gives an infinity, but it always gives
a number. A number whose magnitude does not exceed some ratio is finite.

## Main statements

* `not_isNaN_neg`, `not_isNaN_add`, `not_isNaN_sub`, `not_isNaN_mul`: arithmetic on finite doubles
* `isFinite_of_not_exceeds`: numbers of bounded magnitude
-/

namespace Intonation.Double
open Float.Model Float.Model.UnpackedFloat

variable {x y : Float}

/-! ## Parts of numbers -/

/-- Putting the parts of a number together and taking them apart again gives a number. -/
theorem not_isNaN_unpack_pack {u : UnpackedFloat} (h : u.isNaN = false) :
    (unpack Format.binary64 (UnpackedFloat.pack Format.binary64 u)).isNaN = false := by
  -- only a full exponent field with a fraction that is not zero stands for no number
  have hparts : ∀ (s : Sign) (e : BitVec 11) (f : BitVec 52), e ≠ -1#11 ∨ f = 0#52 →
      (unpack Format.binary64 (packComponents Format.binary64 s e f)).isNaN = false := by
    intro s e f hef
    generalize hw : packComponents Format.binary64 s e f = w
    have hexp : @unpackExponent Format.binary64 w = e := hw ▸ unpackExponent_packComponents
    have hfrac : @unpackMantissa Format.binary64 w = f := hw ▸ unpackMantissa_packComponents
    by_cases hfull : @unpackExponent Format.binary64 w = -1#11
    · have hf : @unpackMantissa Format.binary64 w = 0#52 :=
        hfrac.trans (hef.resolve_left (not_not_intro (hexp.symm.trans hfull)))
      rw [unpack_of_full hfull, if_pos hf]
      rfl
    by_cases hempty : @unpackExponent Format.binary64 w = 0#11
    · by_cases hf : @unpackMantissa Format.binary64 w = 0#52
      · rw [unpack_of_zero hempty hf]
        rfl
      · rw [unpack_of_subnormal hempty hf]
        rfl
    · rw [unpack_of_normal hfull hempty]
      rfl
  cases u with
  | notANumber => cases h
  | infinity s => exact hparts s _ _ (.inr rfl)
  | zero s => exact hparts s _ _ (.inr rfl)
  | finite s m e hm =>
    delta UnpackedFloat.pack
    dsimp only
    by_cases hlarge : 2 ^ 11 ≤ (e + Format.binary64.exponentBias + (52 : Nat)).toNat + 1
    · rw [if_pos hlarge]
      exact hparts s _ _ (.inr rfl)
    · rw [if_neg hlarge]
      by_cases hnormal : m.log2 + 1 = Format.binary64.mantissaBits
      · rw [if_pos hnormal]
        refine hparts s _ _ (.inl fun hfull => ?_)
        have hnat := congrArg BitVec.toNat hfull
        rw [BitVec.toNat_ofNat, show (-1#11 : BitVec 11).toNat = 2047 by decide] at hnat
        omega
      · rw [if_neg hnormal]
        exact hparts s _ _ (.inl (by decide))

theorem not_isNaN_roundWithAccuracy (s : Sign) (m : Nat) (e : Int) (a : Accuracy) :
    (roundWithAccuracy Format.binary64 s m e a).isNaN = false := by
  have hparts : ∀ (n : Nat) (k : Int), (if h : n = 0 then UnpackedFloat.zero s
      else .finite s n k (Nat.pos_of_ne_zero h)).isNaN = false := by
    intro n k
    by_cases h : n = 0
    · rw [dif_pos h]
      rfl
    · rw [dif_neg h]
      rfl
  exact hparts _ _

theorem not_isNaN_normalize (m e : Int) (s : Sign) :
    (UnpackedFloat.normalize Format.binary64 m e s).isNaN = false := by
  unfold UnpackedFloat.normalize
  split
  · exact not_isNaN_roundWithAccuracy _ _ _ _
  · rfl
  · exact not_isNaN_roundWithAccuracy _ _ _ _

/-! ## Arithmetic -/

/-- A finite double is a zero, or has a mantissa. -/
theorem parts_of_isFinite (h : x.isFinite) :
    (∃ s, parts x = .zero s) ∨ ∃ s m e hm, parts x = .finite s m e hm := by
  rw [isFinite_iff_parts] at h
  rcases hp : parts x with s | _ | s | ⟨s, m, e, hm⟩
  · rw [hp] at h
    cases h
  · rw [hp] at h
    cases h
  · exact .inl ⟨s, rfl⟩
  · exact .inr ⟨s, m, e, hm, rfl⟩

theorem isFinite_of_beq_zero (h : x == 0) : x.isFinite := by
  rcases eq_or_eq_of_beq_zero h with rfl | rfl <;> decide

theorem not_isNaN_of_isFinite (h : x.isFinite) : x.isNaN = false := by
  show (parts x).isNaN = false
  rcases parts_of_isFinite h with ⟨s, hp⟩ | ⟨s, m, e, hm, hp⟩ <;> rw [hp] <;> rfl

/-- The opposite of a finite double is a number. -/
theorem not_isNaN_neg (hx : x.isFinite) : (-x).isNaN = false := by
  refine not_isNaN_unpack_pack (u := UnpackedFloat.neg (parts x)) ?_
  rcases parts_of_isFinite hx with ⟨s, hp⟩ | ⟨s, m, e, hm, hp⟩ <;> rw [hp] <;> rfl

/-- The product of finite doubles is a number. -/
theorem not_isNaN_mul (hx : x.isFinite) (hy : y.isFinite) : (x * y).isNaN = false := by
  refine not_isNaN_unpack_pack (u := UnpackedFloat.mul _ (parts x) (parts y)) ?_
  rcases parts_of_isFinite hx with ⟨s, hp⟩ | ⟨s, m, e, hm, hp⟩ <;>
    rcases parts_of_isFinite hy with ⟨t, hq⟩ | ⟨t, n, f, hn, hq⟩ <;> rw [hp, hq]
  · rfl
  · rfl
  · rfl
  · exact not_isNaN_roundWithAccuracy _ _ _ _

/-- The sum of finite doubles is a number. -/
theorem not_isNaN_add (hx : x.isFinite) (hy : y.isFinite) : (x + y).isNaN = false := by
  refine not_isNaN_unpack_pack (u := UnpackedFloat.add _ (parts x) (parts y)) ?_
  rcases parts_of_isFinite hx with ⟨s, hp⟩ | ⟨s, m, e, hm, hp⟩ <;>
    rcases parts_of_isFinite hy with ⟨t, hq⟩ | ⟨t, n, f, hn, hq⟩ <;> rw [hp, hq]
  · cases s <;> cases t <;> rfl
  · rfl
  · rfl
  · exact not_isNaN_normalize _ _ _

/-- The difference of finite doubles is a number. -/
theorem not_isNaN_sub (hx : x.isFinite) (hy : y.isFinite) : (x - y).isNaN = false := by
  refine not_isNaN_unpack_pack (u := UnpackedFloat.sub _ (parts x) (parts y)) ?_
  rcases parts_of_isFinite hx with ⟨s, hp⟩ | ⟨s, m, e, hm, hp⟩ <;>
    rcases parts_of_isFinite hy with ⟨t, hq⟩ | ⟨t, n, f, hn, hq⟩ <;> rw [hp, hq]
  · cases s <;> cases t <;> rfl
  · rfl
  · rfl
  · exact not_isNaN_normalize _ _ _

/-! ## Bounded magnitudes -/

/-- A number whose magnitude does not exceed a ratio is finite. -/
theorem isFinite_of_not_exceeds {bound : ℚ} (hnan : x.isNaN = false)
    (h : exceeds x.abs bound = false) : x.isFinite := by
  have hinf : ∀ s, (Float.ofModel (.pack (.infinity s))).abs = infinity := by
    intro s
    cases s <;> rfl
  have htop : exceeds infinity bound = true := by
    have hpos : 0 < infinity := by decide
    rw [exceeds, infinity, toRat?_infinity]
    exact decide_eq_true hpos
  rw [isFinite_iff_parts]
  change (parts x).isNaN = false at hnan
  rcases hp : parts x with s | _ | s | ⟨s, m, e, hm⟩
  · rw [← ofModel_pack_parts x, hp, hinf s, htop] at h
    cases h
  · rw [hp] at hnan
    cases hnan
  · rfl
  · rfl

end Intonation.Double
