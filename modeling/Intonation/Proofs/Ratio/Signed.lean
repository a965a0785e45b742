import Intonation.Proofs.Ratio.Root
import Intonation.Ratio.Order

/-!
# Roots and powers of either sign

Integers of either sign have at most one root that is found, and ratios of either sign have at most
one power. Where a number has two roots, the one that is not negative is found. An exponent in
lowest terms decides whether a negative ratio has a power: a root of odd order is negative, and a
root of even order is missing, as the exponent's numerator is odd then.

## Main statements

* `naturalRoot?_eq_floorRoot`: the roots found are those that the descent ends at
* `exists_root`: a ratio with a power in lowest terms is a power itself
* `pow?_eq_none_iff`, `pow?_nonneg`: which ratios have no power, and the sign of a power
* `exact_roots_and_powers`: roots of integers and powers of ratios
-/

namespace Intonation.Ratio

variable {n k : Nat} {base exponent root : ℚ}

/-! ## Integers -/

/-- The small numbers and orders that are told apart first have the root that the descent would end
at, or none. -/
theorem naturalRoot?_eq_floorRoot (hk : 0 < k) :
    naturalRoot? n k = if floorRoot n k ^ k = n then some (floorRoot n k) else none := by
  ext root
  rw [naturalRoot?_eq_some_iff hk, Option.ite_none_right_eq_some, Option.some_inj]
  constructor
  · intro h
    have hroot := floorRoot_eq_of_pow_eq hk h
    exact ⟨hroot.symm ▸ h, hroot⟩
  · rintro ⟨hpow, rfl⟩
    exact hpow

/-- A root of positive order is found when there is one. -/
theorem rootOfOrder_spec (hk : 0 < k) (m : Int) :
    (∃ root : Int, rootOfOrder m k = .ok (some root) ∧ root ^ k = m ∧ (0 ≤ m → 0 ≤ root)) ∨
      rootOfOrder m k = .ok none ∧ ¬ ∃ root : Int, root ^ k = m := by
  have hsearch : rootOfOrder m k = .ok (integerRoot? m k) := by
    rw [rootOfOrder, if_pos (Int.natCast_pos.mpr hk), Int.toNat_natCast]
  rw [hsearch]
  cases hroot : integerRoot? m k with
  | some root => exact .inl ⟨root, rfl, (integerRoot?_eq_some_iff hk).mp hroot⟩
  | none =>
    refine .inr ⟨rfl, ?_⟩
    rintro ⟨root, hpow⟩
    -- the magnitude of the root of a nonnegative number is a root as well
    have habs : ∃ r : Int, r ^ k = m ∧ (0 ≤ m → 0 ≤ r) := by
      by_cases hm : 0 ≤ m
      · exact ⟨|root|, by rw [← abs_pow, hpow, abs_of_nonneg hm], fun _ => abs_nonneg root⟩
      · exact ⟨root, hpow, fun h => absurd h hm⟩
    obtain ⟨r, hr⟩ := habs
    rw [(integerRoot?_eq_some_iff hk).mpr hr] at hroot
    cases hroot

/-! ## Ratios -/

/-- In lowest terms, an exponent of even order has an odd numerator. -/
theorem odd_num_of_even_den (h : Even exponent.den) : Odd exponent.num := by
  by_contra hnum
  rw [Int.not_odd_iff_even] at hnum
  exact Nat.not_coprime_of_dvd_of_dvd one_lt_two (Int.natCast_dvd.mp hnum.two_dvd) h.two_dvd
    exponent.reduced

/-- A ratio with a power in lowest terms is a power itself. The root is not negative when the ratio
is not. -/
theorem exists_root (h : root ^ exponent.den = base ^ exponent.num) :
    ∃ t : ℚ, t ^ exponent.den = base ∧ (0 ≤ base → 0 ≤ t) := by
  have hden := exponent.den_pos
  rcases eq_or_ne base 0 with rfl | hbase
  · exact ⟨0, zero_pow hden.ne', fun _ => le_rfl⟩
  have hroot : root ≠ 0 := by
    rintro rfl
    rw [zero_pow hden.ne'] at h
    exact zpow_ne_zero _ hbase h.symm
  obtain ⟨t, ht, hpow⟩ := exists_pow_eq (abs_pos.mpr hbase) (abs_pos.mpr hroot)
    (show |root| ^ exponent.den = |base| ^ exponent.num by rw [← abs_pow, h, abs_zpow])
  rcases lt_or_gt_of_ne hbase with hneg | hpos
  · -- an even root would have an odd power of the ratio as its even power
    have hodd : Odd exponent.den := by
      by_contra heven
      rw [Nat.not_odd_iff_even] at heven
      exact absurd (h ▸ heven.pow_nonneg root)
        (not_le.mpr ((odd_num_of_even_den heven).zpow_neg hneg))
    refine ⟨-t, ?_, fun h0 => absurd hneg (not_lt.mpr h0)⟩
    rw [hodd.neg_pow, hpow, abs_of_neg hneg, neg_neg]
  · exact ⟨t, hpow.trans (abs_of_pos hpos), fun _ => ht.le⟩

/-- There is no power when it is undefined, as those of zero with negative exponents, or when it is
irrational. -/
theorem pow?_eq_none_iff : pow? base exponent = none ↔
    base = 0 ∧ exponent < 0 ∨ ¬ ∃ r : ℚ, r ^ exponent.den = base ^ exponent.num := by
  have hzero : ∀ {t : ℚ}, t ^ exponent.den = base → (t = 0 ↔ base = 0) := by
    rintro t rfl
    rw [pow_eq_zero_iff exponent.den_pos.ne']
  constructor
  · intro hnone
    by_contra hcases
    obtain ⟨hdefined, hexists⟩ := not_or.mp hcases
    obtain ⟨r, hr⟩ := not_not.mp hexists
    obtain ⟨t, ht, hsign⟩ := exists_root hr
    have hpower := pow?_eq_some_iff_exists.mpr
      ⟨t, ht, hsign, (and_congr_left' (hzero ht)).not.mpr hdefined, rfl⟩
    rw [hnone] at hpower
    cases hpower
  · intro hcases
    by_contra hsome
    obtain ⟨power, hpower⟩ := Option.ne_none_iff_exists'.mp hsome
    rcases hcases with hundefined | hirrational
    · obtain ⟨t, ht, -, hdefined, -⟩ := pow?_eq_some_iff_exists.mp hpower
      exact hdefined ((and_congr_left' (hzero ht)).mpr hundefined)
    · exact hirrational ⟨power, pow_den_of_pow? hpower⟩

/-- The power of even order is the one that is not negative. -/
theorem pow?_nonneg (heven : Even exponent.den) (h : pow? base exponent = some root) :
    0 ≤ root := by
  obtain ⟨t, rfl, hsign, -, rfl⟩ := pow?_eq_some_iff_exists.mp h
  exact zpow_nonneg (hsign (heven.pow_nonneg t)) _

/-- Roots of positive order and rational powers are exact: an integer has a root just when one is
found, and a ratio has a power, unless it is undefined, just when one is found. Of two roots the
one that is not negative is taken. -/
theorem exact_roots_and_powers :
    (∀ (m : Int) (k : Nat), 0 < k →
      (∃ r : Int, rootOfOrder m k = .ok (some r) ∧ r ^ k = m ∧ (0 ≤ m → 0 ≤ r)) ∨
        rootOfOrder m k = .ok none ∧ ¬ ∃ r : Int, r ^ k = m) ∧
    ∀ base exponent : ℚ,
      (pow? base exponent = none ↔
        base = 0 ∧ exponent < 0 ∨ ¬ ∃ r : ℚ, r ^ exponent.den = base ^ exponent.num) ∧
      ∀ r, pow? base exponent = some r →
        r ^ exponent.den = base ^ exponent.num ∧ (Even exponent.den → 0 ≤ r) := by
  constructor
  · intro m k hk
    exact rootOfOrder_spec hk m
  · intro base exponent
    refine ⟨pow?_eq_none_iff, fun r h => ⟨pow_den_of_pow? h, fun heven => ?_⟩⟩
    exact pow?_nonneg heven h

/-- Minus eight has a cube root. Eight twenty-sevenths below zero have a power of two thirds, but
none of three halves. -/
theorem exact_roots_and_powers_negative : 0 < 3 ∧
    (∃ r : Int, rootOfOrder (-8) 3 = .ok (some r) ∧ r ^ 3 = -8) ∧
      (∃ r, pow? (-8 / 27) (2 / 3) = some r ∧ r ^ 3 = (-8 / 27) ^ 2) ∧
      pow? (-8 / 27) (3 / 2) = none := by
  obtain ⟨hroots, hpowers⟩ := exact_roots_and_powers
  have hthirds : (2 / 3 : ℚ).num = 2 ∧ (2 / 3 : ℚ).den = 3 := by decide +kernel
  have hhalves : (3 / 2 : ℚ).num = 3 ∧ (3 / 2 : ℚ).den = 2 := by decide +kernel
  refine ⟨by decide, ?_, ?_, ?_⟩
  · rcases hroots (-8) 3 (by decide) with ⟨r, hr, hpow, -⟩ | ⟨-, hnone⟩
    · exact ⟨r, hr, hpow⟩
    · exact absurd ⟨-2, by norm_num⟩ hnone
  · obtain ⟨hnone, hsome⟩ := hpowers (-8 / 27) (2 / 3)
    rw [hthirds.1, hthirds.2] at hnone hsome
    obtain ⟨r, hr⟩ := Option.ne_none_iff_exists'.mp fun h => (hnone.mp h).elim
      (fun h0 => absurd h0.1 (by norm_num)) fun h => h ⟨4 / 9, by rw [zpow_ofNat]; norm_num⟩
    exact ⟨r, hr, (hsome r hr).1.trans (zpow_ofNat _ 2)⟩
  · obtain ⟨hnone, -⟩ := hpowers (-8 / 27) (3 / 2)
    rw [hhalves.1, hhalves.2] at hnone
    refine hnone.mpr (.inr ?_)
    rintro ⟨r, hr⟩
    have hsq := sq_nonneg r
    rw [hr, zpow_ofNat] at hsq
    norm_num at hsq

end Intonation.Ratio
