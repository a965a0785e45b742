import Intonation.Proofs.Double.Product
import Intonation.Proofs.Prime.Table

/-!
# The sizes of the primes

Each decimal digit of a size is at most nine, so that the size of a number in octaves lies
between its whole part and the next integer. The sizes of the primes of the table are therefore
ordinary positive doubles.

## Main statements

* `octaves_bounds`: the size in octaves between integers
* `isFull_cents`: the sizes in cents have full mantissas
-/

namespace Intonation.Ratio

theorem fixedMul_lt {x y a b : Nat} (hx : x < 2 ^ (fixedPlaces + a))
    (hy : y < 2 ^ (fixedPlaces + b)) : fixedMul x y < 2 ^ (fixedPlaces + (a + b)) := by
  rw [fixedMul, Nat.shiftRight_eq_div_pow, Nat.div_lt_iff_lt_mul (Nat.two_pow_pos _), ← pow_add]
  calc x * y < 2 ^ (fixedPlaces + a) * 2 ^ (fixedPlaces + b) := Nat.mul_lt_mul'' hx hy
    _ = 2 ^ (fixedPlaces + (a + b) + fixedPlaces) := by
      rw [← pow_add]
      congr 1
      omega

theorem fixedTenth_lt {x : Nat} (hx : x < 2 ^ (fixedPlaces + 1)) :
    fixedTenth x < 2 ^ (fixedPlaces + 10) := by
  have hsquare := fixedMul_lt hx hx
  have hfourth := fixedMul_lt hsquare hsquare
  exact fixedMul_lt (fixedMul_lt hfourth hfourth) hsquare

/-- Digits are at most nine, so that appending them multiplies by powers of ten. -/
theorem octaveDigits_bounds (count : Nat) {x : Nat} (hx : x < 2 ^ (fixedPlaces + 1))
    (digits : Nat) : digits * 10 ^ count ≤ octaveDigits count x digits ∧
      octaveDigits count x digits < (digits + 1) * 10 ^ count := by
  induction count generalizing x digits with
  | zero => simp [octaveDigits]
  | succ count ih =>
    rw [octaveDigits]
    have hpower := fixedTenth_lt hx
    generalize fixedTenth x = power at hpower
    have hdigit : power.log2 - fixedPlaces ≤ 9 := by
      rcases Nat.eq_zero_or_pos power with rfl | hpos
      · simp
      · have := (Nat.log2_lt hpos.ne').mpr hpower
        omega
    have hnext : power >>> (power.log2 - fixedPlaces) < 2 ^ (fixedPlaces + 1) := by
      rw [Nat.shiftRight_eq_div_pow, Nat.div_lt_iff_lt_mul (Nat.two_pow_pos _), ← pow_add]
      exact Nat.lt_log2_self.trans_le (Nat.pow_le_pow_right (by omega) (by omega))
    obtain ⟨hlo, hhi⟩ := ih hnext (10 * digits + (power.log2 - fixedPlaces))
    rw [pow_succ]
    constructor
    · refine le_trans ?_ hlo
      calc digits * (10 ^ count * 10) = (10 * digits) * 10 ^ count := by ring
        _ ≤ _ := Nat.mul_le_mul_right _ (by omega)
    · refine hhi.trans_le ?_
      calc (10 * digits + (power.log2 - fixedPlaces) + 1) * 10 ^ count
          ≤ (10 * (digits + 1)) * 10 ^ count := Nat.mul_le_mul_right _ (by omega)
        _ = (digits + 1) * (10 ^ count * 10) := by ring

/-- The size of a number in octaves lies between neighbouring integers. -/
theorem octaves_bounds (n : Nat) :
    (n.log2 : ℚ) ≤ octaves n ∧ octaves n ≤ n.log2 + 1 := by
  have hrest : ((n : ℚ).num.natAbs <<< fixedPlaces / (n : ℚ).den) >>> n.log2 <
      2 ^ (fixedPlaces + 1) := by
    rw [Rat.num_natCast, Rat.den_natCast, Int.natAbs_natCast, Nat.div_one, Nat.shiftLeft_eq,
      Nat.shiftRight_eq_div_pow, Nat.div_lt_iff_lt_mul (Nat.two_pow_pos _), pow_succ]
    have h : n < 2 ^ (n.log2 + 1) := Nat.lt_log2_self
    rw [pow_succ] at h
    have := Nat.mul_lt_mul_of_pos_right h (Nat.two_pow_pos fixedPlaces)
    linarith
  have hfloor : (n : ℚ).floor.toNat = n := by
    rw [Rat.floor_def, Rat.num_natCast, Rat.den_natCast, Nat.cast_one, Int.ediv_one,
      Int.toNat_natCast]
  obtain ⟨hlo, hhi⟩ := octaveDigits_bounds 18 hrest n.log2
  rw [octaves, hfloor]
  generalize octaveDigits 18 _ _ = digits at hlo hhi
  have hlo' : (n.log2 : ℚ) * 10 ^ 18 ≤ digits := by exact_mod_cast hlo
  have hhi' : (digits : ℚ) + 1 ≤ (n.log2 + 1) * 10 ^ 18 := by exact_mod_cast hhi
  rw [Rat.mkRat_eq_div]
  push_cast
  constructor
  · rw [le_div_iff₀ (by norm_num)]
    linarith
  · rw [div_le_iff₀ (by norm_num)]
    linarith

end Intonation.Ratio

namespace Intonation.Prime
open Double

theorem ratioOf_ratioBits_one : ratioOf (ratioBits 1) = 1 := by decide +kernel

theorem le_mantissaOf {w : Nat} (hw : 2 ^ 52 ≤ w) : 2 ^ 52 ≤ mantissaOf w := by
  unfold mantissaOf
  split <;> omega

/-- A moderate ratio from one up, scaled to cents, is rounded twice. -/
theorem cents_eq_ofWord {q : ℚ} (hlo : 1 ≤ q) (hhi : q ≤ 1024) :
    1200 * nearest q = ofWord (ratioBits (1200 * ratioOf (ratioBits q))) ∧
      1 ≤ 1200 * ratioOf (ratioBits q) ∧
      ratioBits (1200 * ratioOf (ratioBits q)) < infinityBits := by
  have hpos : 0 < q := lt_of_lt_of_le one_pos hlo
  have hbits1 : ratioBits 1 ≤ ratioBits q := ratioBits_le_ratioBits one_pos hlo
  have hbits2 : ratioBits q ≤ ratioBits 1024 := ratioBits_le_ratioBits hpos hhi
  have hone : 2 ^ 52 ≤ ratioBits 1 := by decide +kernel
  have htop : ratioBits 1024 < infinityBits := by decide +kernel
  have hnearest : nearest q = ofWord (ratioBits q) := by
    rw [nearest, ofRat?_of_pos hpos, if_neg (not_le.mpr (hbits2.trans_lt htop))]
    rfl
  have hscale : (1200 : Float) = ofWord (ratioBits 1200) := by
    apply eq_of_toBits
    decide +kernel
  have hexact : ratioOf (ratioBits 1200) = 1200 := by decide +kernel
  have hsize1 : 1 ≤ ratioOf (ratioBits q) := by
    rw [← ratioOf_ratioBits_one]
    exact ratioOf_le_ratioOf hbits1
  have hsize2 : ratioOf (ratioBits q) ≤ 1024 := by
    have h1024 : ratioOf (ratioBits 1024) = 1024 := by decide +kernel
    rw [← h1024]
    exact ratioOf_le_ratioOf hbits2
  have hprod1 : 1 ≤ 1200 * ratioOf (ratioBits q) := by linarith
  have hword : ratioBits (1200 * ratioOf (ratioBits q)) < infinityBits :=
    (ratioBits_le_ratioBits (p := 1200 * ratioOf (ratioBits q)) (q := 1200 * 1024)
      (by linarith) (by linarith)).trans_lt (by decide +kernel)
  refine ⟨?_, hprod1, hword⟩
  rw [hscale, hnearest, ofWord_mul (by decide +kernel) (by decide +kernel)
    (le_mantissaOf (hone.trans hbits1)) (hbits2.trans_lt htop), hexact, min_eq_left hword.le]

/-- A moderate ratio from one up, as a double scaled to cents, has a full mantissa. -/
theorem isFull_cents_of_bounds {q : ℚ} (hlo : 1 ≤ q) (hhi : q ≤ 1024) :
    IsFull (1200 * nearest q) := by
  obtain ⟨heq, hprod, hword⟩ := cents_eq_ofWord hlo hhi
  have hbits := ratioBits_le_ratioBits one_pos hprod
  have hone : 2 ^ 52 ≤ ratioBits 1 := by decide +kernel
  refine ⟨_, heq, hword, le_mantissaOf (hone.trans hbits), ?_⟩
  rw [← ratioOf_ratioBits_one]
  exact ratioOf_le_ratioOf hbits

/-- The sizes in octaves of the primes of the table are moderate. -/
theorem octaves_mem_table {p : Nat} (h : p ∈ table) :
    1 ≤ Ratio.octaves p ∧ Ratio.octaves p ≤ 13 := by
  obtain ⟨hp, hle⟩ := mem_table.mp h
  obtain ⟨hlo, hhi⟩ := Ratio.octaves_bounds p
  have h1 : 1 ≤ p.log2 := (Nat.le_log2 hp.ne_zero).mpr hp.two_le
  have h2 : p.log2 < 13 := (Nat.log2_lt hp.ne_zero).mpr (by
    rw [tableLimit] at hle
    omega)
  have h1' : (1 : ℚ) ≤ p.log2 := by exact_mod_cast h1
  have h2' : (p.log2 : ℚ) + 1 ≤ 13 := by exact_mod_cast h2
  exact ⟨h1'.trans hlo, hhi.trans h2'⟩

/-- The primes of the table have sizes with full mantissas. -/
theorem isFull_cents {p : Nat} (h : p ∈ table) : IsFull (cents p) := by
  obtain ⟨hlo, hhi⟩ := octaves_mem_table h
  exact isFull_cents_of_bounds hlo (hhi.trans (by norm_num))

theorem isFull_of_mem_measures {pm : Nat × Float} (h : pm ∈ measures) : IsFull pm.2 := by
  obtain ⟨p, hp, rfl⟩ := List.mem_map.mp h
  exact isFull_cents hp

end Intonation.Prime
