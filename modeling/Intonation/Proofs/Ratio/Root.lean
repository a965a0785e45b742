import Intonation.Proofs.Ratio.Power
import Mathlib.Analysis.SpecialFunctions.Pow.NthRootLemmas

/-!
# Roots by Newton's method

A step of Newton's method never falls below the root rounded down, so the descent from above ends
at that root. A root is found when it exists, and a rational power of a positive ratio is found
when the ratio has the power.

## Main statements

* `floorRoot_spec`: the descent ends at the root rounded down
* `naturalRoot?_eq_some_iff`, `integerRoot?_eq_some_iff`: exact roots
* `pow?_eq_some_iff_exists`: exact powers
* `pow?_eq_some_iff`: exact powers of positive ratios
* `pow?_neg`: powers with opposite exponents
-/

namespace Intonation.Ratio

variable {n k x : Nat}

/-- A step of Newton's method does not fall below the root. -/
theorem lt_newtonStep_pow (hk : 0 < k) (hx : x ≠ 0) : n < (newtonStep n k x + 1) ^ k := by
  obtain ⟨j, rfl⟩ := Nat.exists_eq_add_of_lt hk
  have hstep := Nat.nthRoot.lt_pow_go_succ_aux (a := n) (n := j) hx
  rw [newtonStep, zero_add, Nat.add_sub_cancel, add_comm (j * x)]
  exact hstep

/-- Where the method stops falling, the root has been reached. -/
theorem pow_le_of_le_newtonStep (hk : 0 < k) (h : x ≤ newtonStep n k x) : x ^ k ≤ n := by
  obtain ⟨j, rfl⟩ := Nat.exists_eq_add_of_lt hk
  rw [newtonStep, zero_add, Nat.add_sub_cancel, Nat.le_div_iff_mul_le (Nat.succ_pos j)] at h
  have hdiv : x ≤ n / x ^ j := by
    have hsum : x * (j + 1) ≤ j * x + n / x ^ j := h
    linarith
  rw [zero_add, pow_succ, mul_comm]
  exact Nat.mul_le_of_le_div _ _ _ hdiv

theorem descend_spec (hk : 0 < k) (h : n < (x + 1) ^ k) :
    descend n k x ^ k ≤ n ∧ n < (descend n k x + 1) ^ k := by
  induction x using descend.induct n k with
  | case1 x hlt ih =>
    rw [descend, if_pos hlt]
    exact ih (lt_newtonStep_pow hk (Nat.ne_zero_of_lt hlt))
  | case2 x hge =>
    rw [descend, if_neg hge]
    exact ⟨pow_le_of_le_newtonStep hk (not_lt.mp hge), h⟩

theorem lt_two_pow_bitLength (n : Nat) : n < 2 ^ bitLength n := by
  rw [bitLength]
  split
  · next h => simp [h]
  · exact Nat.lt_log2_self

/-- The descent starts above the root and ends at the root rounded down. -/
theorem floorRoot_spec (hk : 0 < k) (n : Nat) :
    floorRoot n k ^ k ≤ n ∧ n < (floorRoot n k + 1) ^ k := by
  refine descend_spec hk ?_
  -- as many binary digits as one `k`-th of those of `n`, rounded up
  have hceil : bitLength n ≤ (bitLength n + k - 1) / k * k := by
    have hmod := Nat.div_add_mod (bitLength n + k - 1) k
    have hlt := Nat.mod_lt (bitLength n + k - 1) hk
    rw [mul_comm] at hmod
    omega
  calc n < 2 ^ bitLength n := lt_two_pow_bitLength n
    _ ≤ 2 ^ ((bitLength n + k - 1) / k * k) := Nat.pow_le_pow_right two_pos hceil
    _ = (1 <<< ((bitLength n + k - 1) / k)) ^ k := by rw [Nat.one_shiftLeft, pow_mul]
    _ ≤ (1 <<< ((bitLength n + k - 1) / k) + 1) ^ k := Nat.pow_le_pow_left (Nat.le_succ _) k

theorem floorRoot_eq_of_pow_eq (hk : 0 < k) {root : Nat} (h : root ^ k = n) :
    floorRoot n k = root := by
  obtain ⟨hle, hlt⟩ := floorRoot_spec hk n
  have h1 : floorRoot n k ≤ root := (Nat.pow_le_pow_iff_left hk.ne').mp (h ▸ hle)
  have h2 : root < floorRoot n k + 1 := (Nat.pow_lt_pow_iff_left hk.ne').mp (h ▸ hlt)
  omega

theorem naturalRoot?_eq_some_iff (hk : 0 < k) {root : Nat} :
    naturalRoot? n k = some root ↔ root ^ k = n := by
  rw [naturalRoot?]
  by_cases hsmall : n < 2 ∨ k = 1
  · rw [if_pos (by simpa using hsmall), Option.some_inj, eq_comm]
    rcases hsmall with hn | rfl
    · interval_cases n
      · rw [Nat.pow_eq_zero, and_iff_left hk.ne']
      · rw [Nat.pow_eq_one, or_iff_left hk.ne']
    · rw [pow_one]
  · rw [if_neg (by simpa using hsmall)]
    obtain ⟨hn, -⟩ := not_or.mp hsmall
    split
    · next hbits =>
      refine ⟨fun h => (Option.some_ne_none _ h.symm).elim, fun h => ?_⟩
      -- the power of a root from two up has more than `k` binary digits
      have hroot : 2 ≤ root := by
        by_contra hroot
        interval_cases root
        · rw [zero_pow hk.ne'] at h
          omega
        · rw [one_pow] at h
          omega
      have hlt := (lt_two_pow_bitLength n).trans_le
        ((Nat.pow_le_pow_right two_pos hbits).trans (Nat.pow_le_pow_left hroot k))
      omega
    · simp only
      constructor
      · intro h
        split at h
        · next hpow =>
          cases h
          exact hpow
        · cases h
      · intro h
        rw [floorRoot_eq_of_pow_eq hk h]
        exact if_pos h

/-- An integer has one root at most, which is not negative when the integer is not. -/
theorem integerRoot?_eq_some_iff (hk : 0 < k) {m root : Int} :
    integerRoot? m k = some root ↔ root ^ k = m ∧ (0 ≤ m → 0 ≤ root) := by
  have hmap : ∀ f : Int → Int, (do let r ← naturalRoot? m.natAbs k; pure (r : Int)).map f =
      some root ↔ ∃ r : Nat, r ^ k = m.natAbs ∧ f r = root := by
    intro f
    simp only [Option.map_eq_some_iff, Option.bind_eq_bind, Option.bind_eq_some_iff,
      naturalRoot?_eq_some_iff hk]
    constructor
    · rintro ⟨-, ⟨r, hr, ⟨⟩⟩, hf⟩
      exact ⟨r, hr, hf⟩
    · rintro ⟨r, hr, hf⟩
      exact ⟨r, ⟨r, hr, rfl⟩, hf⟩
  have hcast : ∀ {r : Nat}, r ^ k = m.natAbs → (r : Int) ^ k = m.natAbs := by
    intro r hr
    rw [← hr, Nat.cast_pow]
  rw [integerRoot?]
  by_cases hm : m < 0
  · -- below zero there is no even root, and the odd root is that of the magnitude, negated
    rw [if_pos hm]
    by_cases heven : k % 2 = 0
    · rw [if_pos heven]
      refine ⟨fun h => (Option.some_ne_none _ h.symm).elim, fun h => ?_⟩
      have hpow : 0 ≤ root ^ k := (Nat.even_iff.mpr heven).pow_nonneg root
      omega
    · rw [if_neg heven, hmap]
      have hodd : Odd k := Nat.not_even_iff_odd.mp (mt Nat.even_iff.mp heven)
      constructor
      · rintro ⟨r, hr, rfl⟩
        exact ⟨by rw [hodd.neg_pow, hcast hr]; omega, fun h => absurd hm (not_lt.mpr h)⟩
      · rintro ⟨rfl, -⟩
        have hroot : root < 0 := hodd.pow_neg_iff.mp hm
        exact ⟨root.natAbs, (Int.natAbs_pow root k).symm, by omega⟩
  · rw [if_neg hm]
    refine (hmap id).trans ?_
    constructor
    · rintro ⟨r, hr, rfl⟩
      exact ⟨by rw [id, hcast hr]; omega, fun _ => Int.natCast_nonneg r⟩
    · rintro ⟨rfl, hroot⟩
      have hnonneg := hroot (not_lt.mp hm)
      exact ⟨root.natAbs, (Int.natAbs_pow root k).symm, Int.natAbs_of_nonneg hnonneg⟩

/-- A positive ratio with a power in lowest terms is a power itself, by Bézout's identity. -/
theorem exists_pow_eq {base root exponent : ℚ} (hbase : 0 < base) (hroot : 0 < root)
    (h : root ^ exponent.den = base ^ exponent.num) : ∃ t : ℚ, 0 < t ∧ t ^ exponent.den = base := by
  have hcoprime : IsCoprime exponent.num (exponent.den : Int) :=
    Int.isCoprime_iff_nat_coprime.mpr exponent.reduced
  obtain ⟨u, v, huv⟩ := hcoprime
  refine ⟨root ^ u * base ^ v, mul_pos (zpow_pos hroot u) (zpow_pos hbase v), ?_⟩
  calc (root ^ u * base ^ v) ^ exponent.den
      = (root ^ exponent.den) ^ u * base ^ (v * exponent.den) := by
        rw [mul_pow, zpow_mul, zpow_natCast, ← zpow_natCast, ← zpow_mul, mul_comm u, zpow_mul,
          zpow_natCast]
    _ = base ^ (u * exponent.num + v * exponent.den) := by
        rw [h, ← zpow_mul, mul_comm exponent.num, zpow_add₀ hbase.ne']
    _ = base := by rw [huv, zpow_one]

/-- The terms of a root are roots of the terms. -/
theorem integerRoot?_terms {base t : ℚ} (hk : 0 < k) (h : t ^ k = base)
    (hsign : 0 ≤ base → 0 ≤ t) :
    integerRoot? base.num k = some t.num ∧ integerRoot? base.den k = some (t.den : Int) := by
  rw [integerRoot?_eq_some_iff hk, integerRoot?_eq_some_iff hk, ← h, Rat.num_pow, Rat.den_pow]
  refine ⟨⟨rfl, fun hnum => ?_⟩, by push_cast; rfl, fun _ => Int.natCast_nonneg _⟩
  rw [← Rat.num_pow, Rat.num_nonneg, h] at hnum
  exact Rat.num_nonneg.mpr (hsign hnum)

/-- An exact power is a whole power of a root, which is not negative when the base is not. -/
theorem pow?_eq_some_iff_exists {base exponent power : ℚ} : pow? base exponent = some power ↔
    ∃ t : ℚ, t ^ exponent.den = base ∧ (0 ≤ base → 0 ≤ t) ∧ ¬ (t = 0 ∧ exponent < 0) ∧
      t ^ exponent.num = power := by
  by_cases hwhole : exponent.den = 1
  · rw [pow?, if_pos hwhole, Option.ite_none_left_eq_some, Option.some_inj, power_eq_zpow, hwhole]
    constructor
    · rintro ⟨hdefined, rfl⟩
      exact ⟨base, pow_one base, id, hdefined, rfl⟩
    · rintro ⟨t, ht, -, hdefined, rfl⟩
      rw [pow_one] at ht
      exact ht ▸ ⟨hdefined, rfl⟩
  · have hden := exponent.den_pos
    rw [pow?, if_neg hwhole]
    constructor
    · intro h
      obtain ⟨num, hnum, h⟩ := Option.bind_eq_some_iff.mp h
      obtain ⟨den, hterm, h⟩ := Option.bind_eq_some_iff.mp h
      obtain ⟨hnum, hnum0⟩ := (integerRoot?_eq_some_iff hden).mp hnum
      obtain ⟨hterm, hterm0⟩ := (integerRoot?_eq_some_iff hden).mp hterm
      obtain ⟨hdefined, h⟩ := Option.ite_none_left_eq_some.mp h
      -- the denominator has a positive root, so that the roots of both terms make a ratio
      have hdenpos : 0 < den := by
        refine lt_of_le_of_ne (hterm0 (Int.natCast_nonneg _)) fun h0 => ?_
        rw [← h0, zero_pow hden.ne'] at hterm
        exact base.den_pos.ne' (by exact_mod_cast hterm.symm)
      have hdenpos' : (0 : ℚ) < den := by exact_mod_cast hdenpos
      refine ⟨num / den, ?_, fun hbase => ?_, fun h0 => hdefined ⟨?_, h0.2⟩, ?_⟩
      · rw [div_pow, ← Int.cast_pow, ← Int.cast_pow, hnum, hterm, Int.cast_natCast,
          Rat.num_div_den]
      · exact div_nonneg (by exact_mod_cast hnum0 (Rat.num_nonneg.mpr hbase)) hdenpos'.le
      · exact_mod_cast (div_eq_zero_iff.mp h0.1).resolve_right hdenpos'.ne'
      · rw [← power_eq_zpow]
        exact Option.some.inj h
    · rintro ⟨t, ht, hsign, hdefined, rfl⟩
      obtain ⟨hnum, hterm⟩ := integerRoot?_terms hden ht hsign
      rw [hnum, hterm]
      refine Option.ite_none_left_eq_some.mpr ⟨fun h0 => hdefined ⟨?_, h0.2⟩, ?_⟩
      · exact Rat.num_eq_zero.mp h0.1
      · rw [power_eq_zpow, Int.cast_natCast, Rat.num_div_den]

/-- An exact power is a root of the whole power. -/
theorem pow_den_of_pow? {base exponent root : ℚ} (h : pow? base exponent = some root) :
    root ^ exponent.den = base ^ exponent.num := by
  obtain ⟨t, rfl, -, -, rfl⟩ := pow?_eq_some_iff_exists.mp h
  rw [← zpow_natCast, ← zpow_mul, mul_comm, zpow_mul, zpow_natCast]

/-- The exact power of a positive ratio is its positive root of the whole power, if there is one. -/
theorem pow?_eq_some_iff {base exponent root : ℚ} (hbase : 0 < base) :
    pow? base exponent = some root ↔ 0 < root ∧ root ^ exponent.den = base ^ exponent.num := by
  have hden := exponent.den_pos
  constructor
  · intro h
    refine ⟨?_, pow_den_of_pow? h⟩
    obtain ⟨t, ht, hsign, -, rfl⟩ := pow?_eq_some_iff_exists.mp h
    have ht0 : t ≠ 0 := by
      rintro rfl
      rw [zero_pow hden.ne'] at ht
      exact hbase.ne ht
    exact zpow_pos (lt_of_le_of_ne (hsign hbase.le) ht0.symm) _
  · rintro ⟨hroot, h⟩
    obtain ⟨t, ht, hpow⟩ := exists_pow_eq hbase hroot h
    refine pow?_eq_some_iff_exists.mpr ⟨t, hpow, fun _ => ht.le, fun h0 => ht.ne' h0.1, ?_⟩
    have hpowers : (t ^ exponent.num) ^ exponent.den = root ^ exponent.den := by
      rw [h, ← hpow, ← zpow_natCast, ← zpow_mul, mul_comm, zpow_mul, zpow_natCast]
    exact (pow_left_inj₀ (zpow_pos ht _).le hroot.le hden.ne').mp hpowers

/-- The power with the opposite exponent is the reciprocal of the power. -/
theorem pow?_neg {base : ℚ} (hbase : 0 < base) (exponent : ℚ) :
    pow? base (-exponent) = (pow? base exponent).map (·⁻¹) := by
  ext root
  rw [Option.map_eq_some_iff, pow?_eq_some_iff hbase, Rat.num_neg_eq_neg_num, Rat.den_neg_eq_den,
    zpow_neg]
  constructor
  · rintro ⟨hroot, hpow⟩
    refine ⟨root⁻¹, (pow?_eq_some_iff hbase).mpr ⟨inv_pos.mpr hroot, ?_⟩, inv_inv root⟩
    rw [inv_pow, hpow, inv_inv]
  · rintro ⟨power, hpower, rfl⟩
    obtain ⟨hpos, hpow⟩ := (pow?_eq_some_iff hbase).mp hpower
    exact ⟨inv_pos.mpr hpos, by rw [inv_pow, hpow]⟩

end Intonation.Ratio
