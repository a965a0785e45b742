import Intonation.Proofs.Monzo.Comparison
import Intonation.Proofs.Monzo.Root
import Intonation.Proofs.Prime.Cents

/-!
# Ratios within the bounds

A ratio has a value over a basis when each prime power of the basis in it is within the bound in
cents, and what is left over has few enough bits. Under the default bounds the first follows from
the second for the primes in a residual: a ratio of few bits has a value over every basis, and a
value that was built over one basis can be taken over every larger one.

## Main statements

* `ofRatioOver_returns_iff`: the ratios that have a value over a basis
* `exists_ofRatioOver_of_bits`: a ratio of few bits has one
* `exists_ofRatioOver_of_within`, `exists_ofRatioOver_of_le`: a ratio with a value over one basis
  has one over a larger one
* `widen_ofRatioOver`: the first value grows into the second
-/

namespace Intonation
open Double

/-! ## Bits of factors -/

namespace Ratio

theorem bitLength_le_bitLength {m n : Nat} (h : m ≤ n) : bitLength m ≤ bitLength n := by
  rcases Nat.eq_zero_or_pos m with rfl | hm
  · simp [bitLength]
  · rw [bitLength, bitLength, if_neg hm.ne', if_neg (hm.trans_le h).ne', Nat.log2_eq_log_two,
      Nat.log2_eq_log_two]
    exact Nat.succ_le_succ (Nat.log_mono_right h)

theorem bits_neg (q : ℚ) : bits (-q) = bits q := by
  rw [bits, bits, Rat.num_neg_eq_neg_num, Int.natAbs_neg, Rat.den_neg_eq_den]

theorem bits_inv (q : ℚ) : bits q⁻¹ = bits q := by
  by_cases hq : q = 0
  · rw [hq, inv_zero]
  · have hnum : q⁻¹.num.natAbs = q.den := by
      rw [Rat.num_inv, Int.natAbs_mul, Int.natAbs_sign_of_ne_zero (Rat.num_ne_zero.mpr hq), one_mul,
        Int.natAbs_natCast]
    rw [bits, bits, hnum, Rat.den_inv, if_neg (Rat.num_ne_zero.mpr hq), max_comm]

/-- The power of a prime in a ratio has no more bits than the ratio. -/
theorem pow_padicValRat_lt {p : Nat} (hp : p.Prime) {q : ℚ} (hq : q ≠ 0) :
    p ^ (padicValRat p q).natAbs < 2 ^ bits q := by
  have hterm : ∀ {n : Nat}, 0 < n → bitLength n ≤ bits q → p ^ padicValNat p n < 2 ^ bits q := by
    intro n hn hbits
    calc p ^ padicValNat p n ≤ n := Nat.le_of_dvd hn pow_padicValNat_dvd
      _ < 2 ^ bitLength n := lt_two_pow_bitLength n
      _ ≤ 2 ^ bits q := Nat.pow_le_pow_right two_pos hbits
  have hnum := hterm (Int.natAbs_pos.mpr (Rat.num_ne_zero.mpr hq)) (le_max_left _ _)
  have hden := hterm q.den_pos (le_max_right _ _)
  have hle : (padicValRat p q).natAbs ≤ padicValNat p q.num.natAbs ∨
      (padicValRat p q).natAbs ≤ padicValNat p q.den := by
    rw [padicValRat_def, padicValInt]
    omega
  rcases hle with hle | hle
  · exact (Nat.pow_le_pow_right hp.pos hle).trans_lt hnum
  · exact (Nat.pow_le_pow_right hp.pos hle).trans_lt hden

end Ratio

namespace Prime

/-- What splitting leaves has no more bits than the ratio. -/
theorem bits_split_le {primes : List Nat} (h : Distinct primes) {q : ℚ} (hq : q ≠ 0) :
    Ratio.bits (split primes q).2 ≤ Ratio.bits q := by
  have hnum : 0 < q.num.natAbs := Int.natAbs_pos.mpr (Rat.num_ne_zero.mpr hq)
  have hsplit := splitParts_spec h hnum q.den_pos
  generalize hparts : splitParts primes q.num.natAbs q.den = parts at hsplit
  have hbits : Ratio.bits (split primes q).2 = Ratio.bits (mkRat parts.2.1 parts.2.2) := by
    rw [split, if_neg hq, hparts]
    simp only
    split
    · exact Ratio.bits_neg _
    · rfl
  have hden0 : (parts.2.2 : Int) ≠ 0 := by exact_mod_cast hsplit.den_pos.ne'
  have hup : (mkRat parts.2.1 parts.2.2).num.natAbs ∣ parts.2.1 := by
    have := Rat.num_dvd parts.2.1 hden0
    exact Int.natAbs_dvd_natAbs.mpr this
  have hdown : (mkRat parts.2.1 parts.2.2).den ∣ parts.2.2 := by
    exact_mod_cast Rat.den_dvd parts.2.1 parts.2.2
  rw [hbits, Ratio.bits, Ratio.bits]
  refine max_le_max (Ratio.bitLength_le_bitLength ?_) (Ratio.bitLength_le_bitLength ?_)
  · exact (Nat.le_of_dvd hsplit.num_pos hup).trans (Nat.le_of_dvd hnum hsplit.num_dvd)
  · exact (Nat.le_of_dvd hsplit.den_pos hdown).trans (Nat.le_of_dvd q.den_pos hsplit.den_dvd)

/-- What is left over more primes is left of what is left over fewer. -/
theorem residual_split_split {primes : List Nat} (h : Distinct primes) {q : ℚ} (hq : q ≠ 0)
    (k : Nat) : (split primes q).2 = (split primes (split (primes.take k) q).2).2 := by
  conv_lhs => rw [Monzo.split_split h hq k]

/-- A prime that was not divided out has its exponent in what is left. -/
theorem padicValRat_residual {primes : List Nat} (h : Distinct primes) {p : Nat} (hp : p.Prime)
    (hmem : p ∉ primes) {q : ℚ} (hq : q ≠ 0) :
    padicValRat p (split primes q).2 = padicValRat p q := by
  have := Fact.mk hp
  obtain ⟨-, -, hproduct⟩ := split_spec h q
  conv_rhs => rw [← hproduct]
  rw [padicValRat.mul ((Monzo.residual_split_ne_zero_iff h).mpr hq) (powerProduct_pos h _).ne',
    padicValRat_powerProduct_of_notMem h hp hmem, add_zero]

end Prime

namespace Monzo
open Intonation.Prime

variable {s : Settings} {q : ℚ} {m : Monzo} {count wide : Nat}

/-! ## Values over a basis -/

/-- Exponents are within a bound when each of them is. -/
theorem exponentFault?_map_iff {bound : ℚ} (f : Nat → Int) (primes : List Nat) (count : Nat) :
    exponentFault? bound (primes.map fun p => (p, Prime.cents p)) (wholes ((primes.take count).map f)) =
        none ↔
      ∀ p ∈ primes.take count, f p = 0 ∨ Within (Prime.cents p) bound |(f p : ℚ)| := by
  induction primes generalizing count with
  | nil => simp [wholes, exponentFault?_nil]
  | cons p primes ih =>
    cases count with
    | zero => simp [wholes, exponentFault?_nil]
    | succ count =>
      rw [List.take_succ_cons, List.forall_mem_cons, ← ih]
      exact exponentFault?_cons.trans (and_congr_left' (or_congr_left Int.cast_eq_zero))

/-- The ratios that have a value over a basis. -/
theorem ofRatioOver_returns_iff (hq : q ≠ 0) : (∃ m, ofRatioOver s count q = .ok m) ↔
    count ≤ tableSize ∧
    (∀ p ∈ table.take count, padicValRat p q = 0 ∨
      Within (Prime.cents p) (centsBound s) |(padicValRat p q : ℚ)|) ∧
    Ratio.bits (split (table.take count) q).2 ≤ s.absurdExponent := by
  have hexps := @exponentFault?_map_iff (centsBound s) (fun p => padicValRat p q) table count
  rw [map_padicValRat_split (distinct_table.take count) hq] at hexps
  rw [← hexps]
  constructor
  · rintro ⟨m, hm⟩
    obtain ⟨hle, hchecked⟩ := ofRatioOver_eq_ok_iff.mp hm
    have hbounds := boundsFault?_eq_none_iff.mp (checked_eq_ok_iff.mp hchecked).1
    exact ⟨hle, hbounds.1, hbounds.2.bits_le⟩
  · rintro ⟨hle, hfault, hbits⟩
    exact ⟨_, ofRatioOver_eq_ok_iff.mpr ⟨hle, checked_eq_ok_iff.mpr
      ⟨bounded_of_uncorrected hfault hbits zero_beq_zero, rfl⟩⟩⟩

theorem centsBound_default (h : s.absurdExponent = ({} : Settings).absurdExponent) :
    centsBound s = centsBound {} := by rw [centsBound, centsBound, h]

/-- The power of a prime in a ratio of few bits is within the default bound. -/
theorem within_of_bits (hdefault : s.absurdExponent = ({} : Settings).absurdExponent) (hq : q ≠ 0)
    (hbits : Ratio.bits q ≤ s.absurdExponent) {p : Nat} (hp : p ∈ table) :
    Within (Prime.cents p) (centsBound s) |(padicValRat p q : ℚ)| := by
  have habs : |(padicValRat p q : ℚ)| = (padicValRat p q).natAbs := by
    rw [Nat.cast_natAbs, Int.cast_abs]
  rw [centsBound_default hdefault, habs]
  exact within_of_pow_lt hp (hbits.trans_eq hdefault)
    (Ratio.pow_padicValRat_lt (prime_of_mem_table hp) hq)

/-- A ratio of few bits has a value over every basis that the table covers. -/
theorem exists_ofRatioOver_of_bits (hdefault : s.absurdExponent = ({} : Settings).absurdExponent)
    (hcount : count ≤ tableSize) (hbits : Ratio.bits q ≤ s.absurdExponent) :
    ∃ m, ofRatioOver s count q = .ok m := by
  by_cases hq : q = 0
  · subst hq
    refine ⟨_, ofRatioOver_eq_ok_iff.mpr ⟨hcount, checked_eq_ok_iff.mpr ⟨?_, rfl⟩⟩⟩
    refine bounded_of_uncorrected (exponentFault?_eq_none_of_zero _ ?_) hbits zero_beq_zero
    simp [split, wholes]
  · exact (ofRatioOver_returns_iff hq).mpr
      ⟨hcount, fun _ hp => .inr (within_of_bits hdefault hq hbits (List.mem_of_mem_take hp)),
        (bits_split_le (distinct_table.take count) hq).trans hbits⟩

/-- A ratio with a value over some basis has one over a larger basis when the powers of the later
primes are within the bound. -/
theorem exists_ofRatioOver_of_within (hq : q ≠ 0) (h : ofRatioOver s count q = .ok m)
    (hle : count ≤ wide) (hwide : wide ≤ tableSize)
    (hlater : ∀ p ∈ table.take wide, p ∉ table.take count → padicValRat p q = 0 ∨
      Within (Prime.cents p) (centsBound s) |(padicValRat p q : ℚ)|) :
    ∃ n, ofRatioOver s wide q = .ok n := by
  obtain ⟨-, hwithin, hbits⟩ := (ofRatioOver_returns_iff hq).mp ⟨m, h⟩
  refine (ofRatioOver_returns_iff hq).mpr ⟨hwide, fun p hp => ?_, ?_⟩
  · by_cases hmem : p ∈ table.take count
    · exact hwithin p hmem
    · exact hlater p hp hmem
  · have htake : (table.take wide).take count = table.take count := by
      rw [List.take_take, min_eq_left hle]
    rw [residual_split_split (distinct_table.take wide) hq count, htake]
    exact (bits_split_le (distinct_table.take wide)
      ((residual_split_ne_zero_iff (distinct_table.take count)).mpr hq)).trans hbits

/-- A ratio with a value over some basis has one over every larger basis that the table covers. -/
theorem exists_ofRatioOver_of_le (hdefault : s.absurdExponent = ({} : Settings).absurdExponent)
    (hq : q ≠ 0) (h : ofRatioOver s count q = .ok m) (hle : count ≤ wide)
    (hwide : wide ≤ tableSize) : ∃ n, ofRatioOver s wide q = .ok n := by
  refine exists_ofRatioOver_of_within hq h hle hwide fun p hp hmem => ?_
  -- the power of a later prime was in the residual
  have htable := List.mem_of_mem_take hp
  have hdistinct := distinct_table.take count
  rw [← padicValRat_residual hdistinct (prime_of_mem_table htable) hmem hq]
  exact .inr (within_of_bits hdefault ((residual_split_ne_zero_iff hdistinct).mpr hq)
    ((ofRatioOver_returns_iff hq).mp ⟨m, h⟩).2.2 htable)

theorem bounded_ofRatioOver (h : ofRatioOver s count q = .ok m) : boundsFault? s m = none := by
  obtain ⟨hbounded, rfl⟩ := checked_eq_ok_iff.mp (ofRatioOver_eq_ok_iff.mp h).2
  exact hbounded

/-- A value built from a ratio. -/
theorem parts_ofRatioOver (hq : q ≠ 0) (h : ofRatioOver s count q = .ok m) :
    m.Factored ∧ m.isFractional ∧ m.residual ≠ 0 ∧ m.ratio = q ∧ m.components = count := by
  obtain ⟨hle, -⟩ := ofRatioOver_eq_ok_iff.mp h
  have hfactored := Ensures.iff_forall.mp (Factored.ofRatioOver q) m h
  obtain rfl := parts_of_ofRatioOver h
  obtain ⟨hlen, -, hproduct⟩ := split_spec (distinct_table.take count) q
  refine ⟨hfactored, isFractional_iff.mpr ⟨zero_beq_zero, _, rfl⟩,
    (residual_split_ne_zero_iff (distinct_table.take count)).mpr hq, ?_, ?_⟩
  · rw [ratio_eq_of_exps rfl,
      ← powerProduct_take table _ (hlen.trans_le (List.length_take_le _ _)), hproduct]
  · rw [components, length_wholes, hlen, length_take_table hle]

/-- A value built from a ratio, over more primes. -/
theorem spread_ofRatioOver (hq : q ≠ 0) (h : ofRatioOver s count q = .ok m) (hle : count ≤ wide)
    (hwide : wide ≤ tableSize) : spread wide m.parts =
      (wholes (split (table.take wide) q).1, (split (table.take wide) q).2) := by
  obtain ⟨hfactored, hfrac, h0, hratio, hcomponents⟩ := parts_ofRatioOver hq h
  rw [hfactored.spread_eq hfrac h0 (hcomponents.trans_le hle) hwide, hratio]

/-- A value built from a ratio grows into the value over more primes, if there is one. -/
theorem widen_ofRatioOver {n : Monzo} (hq : q ≠ 0) (h : ofRatioOver s count q = .ok m)
    (hle : count ≤ wide) (hn : ofRatioOver s wide q = .ok n) :
    ∃ c, m.widen s wide = .ok c := by
  obtain ⟨hwide, hchecked⟩ := ofRatioOver_eq_ok_iff.mp hn
  obtain ⟨hbounded, hparts⟩ := checked_eq_ok_iff.mp hchecked
  have hcents : ∀ {k : Nat} {m : Monzo}, ofRatioOver s k q = .ok m → m.cents == 0 :=
    fun h => (isFractional_iff.mp (parts_ofRatioOver hq h).2.1).1
  have hspread : n.parts = spread wide m.parts := by
    rw [spread_ofRatioOver hq h hle hwide, hparts]
    rfl
  exact exists_widen hwide (hcents h) (hcents hn) (hparts ▸ hbounded) hspread

end Monzo

end Intonation
