import Intonation.Prime.Factor
import Intonation.Proofs.Prime.Table
import Mathlib.NumberTheory.Padics.PadicVal.Basic
import Mathlib.Tactic

/-!
# Ratios split into primes

Splitting a ratio over distinct primes gives its valuations at these primes and a residual that
none of them divides. No other exponents and no other such residual multiply to the ratio.

## Main definitions

* `powerProduct`: the product of numbers raised to exponents
* `Distinct`: distinct primes
* `Free`: a ratio that none of the given primes divides

## Main statements

* `strip_spec`: dividing a prime out of a number
* `split_spec`: splitting a ratio
* `split_eq_of_eq_mul`: a factorization is the one that splitting gives
-/

namespace Intonation.Prime

/-! ## Products of powers -/

/-- The product of numbers raised to exponents, position by position. -/
def powerProduct : List Nat → List Int → ℚ
  | p :: primes, e :: es => (p : ℚ) ^ e * powerProduct primes es
  | _, _ => 1

/-- Distinct primes. -/
structure Distinct (primes : List Nat) : Prop where
  prime : ∀ p ∈ primes, p.Prime
  nodup : primes.Nodup

theorem distinct_table : Distinct table := ⟨fun _ => prime_of_mem_table, table_nodup⟩

namespace Distinct

variable {p : Nat} {primes : List Nat}

theorem head (h : Distinct (p :: primes)) : p.Prime := h.prime p List.mem_cons_self

theorem tail (h : Distinct (p :: primes)) : Distinct primes :=
  ⟨fun q hq => h.prime q (List.mem_cons_of_mem _ hq), (List.nodup_cons.mp h.nodup).2⟩

theorem head_ne (h : Distinct (p :: primes)) {q : Nat} (hq : q ∈ primes) : q ≠ p := by
  rintro rfl
  exact (List.nodup_cons.mp h.nodup).1 hq

theorem take (h : Distinct primes) (n : Nat) : Distinct (primes.take n) :=
  ⟨fun q hq => h.prime q (List.mem_of_mem_take hq), h.nodup.sublist (List.take_sublist n primes)⟩

theorem head_pos (h : Distinct (p :: primes)) : (0 : ℚ) < p := by exact_mod_cast h.head.pos

end Distinct

@[simp] theorem powerProduct_nil (primes : List Nat) : powerProduct primes [] = 1 := by
  cases primes <;> rfl

@[simp] theorem powerProduct_cons (p : Nat) (primes : List Nat) (e : Int) (es : List Int) :
    powerProduct (p :: primes) (e :: es) = (p : ℚ) ^ e * powerProduct primes es := rfl

theorem powerProduct_pos {primes : List Nat} (h : Distinct primes) (es : List Int) :
    0 < powerProduct primes es := by
  induction primes generalizing es with
  | nil => simp [powerProduct]
  | cons p primes ih =>
    cases es with
    | nil => simp
    | cons e es => exact mul_pos (zpow_pos h.head_pos e) (ih h.tail es)

theorem powerProduct_take (primes : List Nat) (es : List Int) {n : Nat} (h : es.length ≤ n) :
    powerProduct (primes.take n) es = powerProduct primes es := by
  induction primes generalizing es n with
  | nil => simp
  | cons p primes ih =>
    cases es with
    | nil => simp
    | cons e es =>
      cases n with
      | zero => simp at h
      | succ n => rw [List.take_succ_cons, powerProduct_cons, powerProduct_cons,
          ih es (by simpa using h)]

theorem powerProduct_eq_one {primes : List Nat} {es : List Int} (h : ∀ e ∈ es, e = 0) :
    powerProduct primes es = 1 := by
  induction primes generalizing es with
  | nil => rfl
  | cons p primes ih =>
    cases es with
    | nil => simp
    | cons e es =>
      rw [powerProduct_cons, h e List.mem_cons_self, zpow_zero, one_mul]
      exact ih fun e' he' => h e' (List.mem_cons_of_mem _ he')

/-- Exponents that are not negative multiply to an integer. -/
theorem powerProduct_eq_natCast {primes : List Nat} {es : List Int} (h : ∀ e ∈ es, 0 ≤ e) :
    ∃ n : Nat, powerProduct primes es = n := by
  induction primes generalizing es with
  | nil => exact ⟨1, by simp [powerProduct]⟩
  | cons p primes ih =>
    cases es with
    | nil => exact ⟨1, by simp⟩
    | cons e es =>
      obtain ⟨n, hn⟩ := ih fun e' he' => h e' (List.mem_cons_of_mem _ he')
      obtain ⟨k, rfl⟩ := Int.eq_ofNat_of_zero_le (h e List.mem_cons_self)
      refine ⟨p ^ k * n, ?_⟩
      rw [powerProduct_cons, hn, zpow_natCast]
      push_cast
      rfl

theorem powerProduct_append_zeros (primes : List Nat) (es : List Int) (count : Nat) :
    powerProduct primes (es ++ List.replicate count 0) = powerProduct primes es := by
  induction primes generalizing es with
  | nil => simp [powerProduct]
  | cons p primes ih =>
    cases es with
    | nil =>
      rw [List.nil_append, powerProduct_nil]
      exact powerProduct_eq_one fun e he => List.eq_of_mem_replicate he
    | cons e es => rw [List.cons_append, powerProduct_cons, powerProduct_cons, ih]

theorem powerProduct_zipWith_add {primes : List Nat} (h : Distinct primes) (es fs : List Int)
    (hlen : es.length = fs.length) :
    powerProduct primes (es.zipWith (· + ·) fs) =
      powerProduct primes es * powerProduct primes fs := by
  induction primes generalizing es fs with
  | nil => simp [powerProduct]
  | cons p primes ih =>
    cases es with
    | nil =>
      rw [List.length_eq_zero_iff.mp hlen.symm]
      simp
    | cons e es =>
      cases fs with
      | nil => simp at hlen
      | cons f fs =>
        rw [List.zipWith_cons_cons, powerProduct_cons, powerProduct_cons, powerProduct_cons,
          ih h.tail es fs (by simpa using hlen), zpow_add₀ h.head_pos.ne']
        ring

theorem powerProduct_map_mul (primes : List Nat) (es : List Int) (k : Int) :
    powerProduct primes (es.map (· * k)) = powerProduct primes es ^ k := by
  induction primes generalizing es with
  | nil => simp [powerProduct]
  | cons p primes ih =>
    cases es with
    | nil => simp
    | cons e es =>
      rw [List.map_cons, powerProduct_cons, powerProduct_cons, ih es, zpow_mul, mul_zpow]

theorem powerProduct_map_neg (primes : List Nat) (es : List Int) :
    powerProduct primes (es.map fun e => -e) = (powerProduct primes es)⁻¹ := by
  have h := powerProduct_map_mul primes es (-1)
  simpa [zpow_neg] using h

/-! ## Valuations -/

/-- A prime has no exponent in a ratio just when it divides neither of the terms. -/
theorem padicValRat_eq_zero_iff {q : ℚ} (h0 : q ≠ 0) {p : Nat} (hp : p.Prime) :
    padicValRat p q = 0 ↔ ¬ p ∣ q.num.natAbs ∧ ¬ p ∣ q.den := by
  have := Fact.mk hp
  have hnum : q.num.natAbs ≠ 0 := Int.natAbs_ne_zero.mpr (Rat.num_ne_zero.mpr h0)
  have hboth : ¬ (p ∣ q.num.natAbs ∧ p ∣ q.den) := fun ⟨h1, h2⟩ =>
    hp.not_dvd_one (q.reduced.gcd_eq_one ▸ Nat.dvd_gcd h1 h2)
  rw [dvd_iff_padicValNat_ne_zero hnum, dvd_iff_padicValNat_ne_zero q.den_ne_zero] at hboth ⊢
  rw [padicValRat, padicValInt]
  omega

/-- A ratio that none of the given primes divides; zero counts as such a ratio. -/
def Free (primes : List Nat) (q : ℚ) : Prop := ∀ p ∈ primes, padicValRat p q = 0

namespace Free

variable {primes : List Nat} {q r : ℚ}

theorem zero (primes : List Nat) : Free primes 0 := fun _ _ => padicValRat.zero

theorem one (primes : List Nat) : Free primes 1 := fun _ _ => padicValRat.one

theorem neg (h : Free primes q) : Free primes (-q) :=
  fun p hp => (padicValRat.neg q).trans (h p hp)

theorem abs (h : Free primes q) : Free primes |q| := by
  rcases abs_choice q with hq | hq <;> rw [hq]
  · exact h
  · exact h.neg

theorem mul (hd : Distinct primes) (hq : Free primes q) (hr : Free primes r) :
    Free primes (q * r) := by
  intro p hp
  have := Fact.mk (hd.prime p hp)
  rcases eq_or_ne q 0 with rfl | hq0
  · simp
  rcases eq_or_ne r 0 with rfl | hr0
  · simp
  rw [padicValRat.mul hq0 hr0, hq p hp, hr p hp, add_zero]

theorem inv (hd : Distinct primes) (hq : Free primes q) : Free primes q⁻¹ := by
  intro p hp
  have := Fact.mk (hd.prime p hp)
  rw [padicValRat.inv, hq p hp, neg_zero]

theorem div (hd : Distinct primes) (hq : Free primes q) (hr : Free primes r) :
    Free primes (q / r) := by
  rw [div_eq_mul_inv]
  exact mul hd hq (inv hd hr)

theorem zpow (hd : Distinct primes) (hq : Free primes q) (k : Int) : Free primes (q ^ k) := by
  intro p hp
  have := Fact.mk (hd.prime p hp)
  rw [padicValRat.zpow, hq p hp, mul_zero]

theorem iff_not_dvd (hd : Distinct primes) (h0 : q ≠ 0) :
    Free primes q ↔ ∀ p ∈ primes, ¬ p ∣ q.num.natAbs ∧ ¬ p ∣ q.den :=
  forall₂_congr fun p hp => padicValRat_eq_zero_iff h0 (hd.prime p hp)

theorem not_dvd (hd : Distinct primes) (hq : Free primes q) (h0 : q ≠ 0) {p : Nat}
    (hp : p ∈ primes) : ¬ p ∣ q.num.natAbs ∧ ¬ p ∣ q.den :=
  (iff_not_dvd hd h0).mp hq p hp

theorem of_not_dvd (hd : Distinct primes) {n d : Nat} (hn : ∀ p ∈ primes, ¬ p ∣ n)
    (hd' : ∀ p ∈ primes, ¬ p ∣ d) : Free primes ((n : ℚ) / d) := by
  intro p hp
  have := Fact.mk (hd.prime p hp)
  have hn0 : (n : ℚ) ≠ 0 := by
    rintro h0
    rw [Nat.cast_eq_zero] at h0
    exact hn p hp (h0 ▸ dvd_zero p)
  have hd0 : (d : ℚ) ≠ 0 := by
    rintro h0
    rw [Nat.cast_eq_zero] at h0
    exact hd' p hp (h0 ▸ dvd_zero p)
  rw [padicValRat.div hn0 hd0, padicValRat.of_nat, padicValRat.of_nat,
    padicValNat.eq_zero_of_not_dvd (hn p hp), padicValNat.eq_zero_of_not_dvd (hd' p hp)]
  rfl

end Free

theorem padicValRat_powerProduct_of_notMem {primes : List Nat} (h : Distinct primes) {q : Nat}
    (hq : q.Prime) (hmem : q ∉ primes) (es : List Int) :
    padicValRat q (powerProduct primes es) = 0 := by
  have := Fact.mk hq
  induction primes generalizing es with
  | nil => simp [powerProduct]
  | cons p primes ih =>
    cases es with
    | nil => simp
    | cons e es =>
      have := Fact.mk h.head
      have hne : q ≠ p := fun heq => hmem (heq ▸ List.mem_cons_self)
      have hp : padicValRat q (p : ℚ) = 0 := by
        rw [padicValRat.of_nat, padicValNat_primes hne, Nat.cast_zero]
      rw [powerProduct_cons, padicValRat.mul (zpow_ne_zero _ h.head_pos.ne')
        (powerProduct_pos h.tail es).ne', padicValRat.zpow, hp, mul_zero, zero_add,
        ih h.tail (fun hm => hmem (List.mem_cons_of_mem _ hm))]

/-- The valuations of a product of prime powers are its exponents. -/
theorem map_padicValRat_powerProduct {primes : List Nat} (h : Distinct primes) (es : List Int)
    (hlen : es.length = primes.length) {r : ℚ} (hr : r ≠ 0) (hfree : Free primes r) :
    primes.map (fun p => padicValRat p (r * powerProduct primes es)) = es := by
  induction primes generalizing es r with
  | nil => simpa using hlen
  | cons p primes ih =>
    cases es with
    | nil => simp at hlen
    | cons e es =>
      have hp := Fact.mk h.head
      have hpe : (p : ℚ) ^ e ≠ 0 := zpow_ne_zero _ h.head_pos.ne'
      have hrest := (powerProduct_pos h.tail es).ne'
      have htail := ih h.tail es (by simpa using hlen) (mul_ne_zero hr hpe) (by
        intro q hq
        have := Fact.mk (h.tail.prime q hq)
        rw [padicValRat.mul hr hpe, hfree q (List.mem_cons_of_mem _ hq), padicValRat.zpow,
          padicValRat.of_nat, padicValNat_primes (h.head_ne hq)]
        simp)
      rw [List.map_cons, powerProduct_cons]
      congr 1
      · rw [padicValRat.mul hr (mul_ne_zero hpe hrest), padicValRat.mul hpe hrest,
          hfree p List.mem_cons_self, padicValRat.zpow, padicValRat.self h.head.one_lt,
          padicValRat_powerProduct_of_notMem h.tail h.head (List.nodup_cons.mp h.nodup).1]
        ring
      · simpa [mul_assoc] using htail

/-! ## Dividing out primes -/

/-- Dividing out a number as often as it goes. -/
theorem strip_spec {p n : Nat} (hp : 2 ≤ p) (hn : 0 < n) :
    (strip p n).1 * p ^ (strip p n).2 = n ∧ ¬ p ∣ (strip p n).1 := by
  induction p using strip.induct n with
  | case1 p h rest hrest ih =>
    obtain ⟨hmul, hndvd⟩ := ih (by nlinarith)
    have hdvd : p ∣ (strip (p * p) n).1 := Nat.dvd_of_mod_eq_zero hrest
    rw [strip, dif_pos h]
    simp only
    rw [if_pos hrest]
    generalize strip (p * p) n = rest at hmul hndvd hdvd ⊢
    constructor
    · obtain ⟨u, hu⟩ := hdvd
      rw [← hmul, hu, Nat.mul_div_cancel_left u (by omega), pow_succ, pow_mul, pow_two]
      ring
    · intro hpp
      exact hndvd (Nat.mul_dvd_of_dvd_div hdvd hpp)
  | case2 p h rest hrest ih =>
    obtain ⟨hmul, -⟩ := ih (by nlinarith)
    rw [strip, dif_pos h]
    simp only
    rw [if_neg hrest]
    constructor
    · conv_rhs => rw [← hmul]
      rw [pow_mul, pow_two]
    · exact fun hpp => hrest (Nat.mod_eq_zero_of_dvd hpp)
  | case3 p h =>
    rw [strip, dif_neg h]
    refine ⟨by simp, fun hpp => h ⟨hp, hn, Nat.mod_eq_zero_of_dvd hpp⟩⟩

theorem strip_pos {p n : Nat} (hp : 2 ≤ p) (hn : 0 < n) : 0 < (strip p n).1 := by
  obtain ⟨hmul, -⟩ := strip_spec hp hn
  by_contra h
  rw [show (strip p n).1 = 0 by omega, zero_mul] at hmul
  omega

/-- What is left after dividing the primes out of a numerator and a denominator. -/
structure SplitOf (primes : List Nat) (num den : Nat) (parts : List Int × Nat × Nat) : Prop where
  length : parts.1.length = primes.length
  num_dvd : parts.2.1 ∣ num
  den_dvd : parts.2.2 ∣ den
  num_pos : 0 < parts.2.1
  den_pos : 0 < parts.2.2
  num_free : ∀ p ∈ primes, ¬ p ∣ parts.2.1
  den_free : ∀ p ∈ primes, ¬ p ∣ parts.2.2
  product : (parts.2.1 : ℚ) / parts.2.2 * powerProduct primes parts.1 = num / den

theorem splitParts_spec {primes : List Nat} (h : Distinct primes) {num den : Nat} (hn : 0 < num)
    (hd : 0 < den) : SplitOf primes num den (splitParts primes num den) := by
  induction primes generalizing num den with
  | nil => constructor <;> simp_all [splitParts]
  | cons p primes ih =>
    rw [splitParts]
    split
    · next hone =>
      obtain ⟨rfl, rfl⟩ := hone
      have hfree : ∀ q ∈ p :: primes, ¬ q ∣ 1 := fun q hq hdvd =>
        (h.prime q hq).one_lt.ne' (Nat.dvd_one.mp hdvd)
      have hones : powerProduct (p :: primes) ((p :: primes).map fun _ => (0 : Int)) = 1 :=
        powerProduct_eq_one (by simp)
      exact ⟨by simp, dvd_rfl, dvd_rfl, one_pos, one_pos, hfree, hfree, by rw [hones]; simp⟩
    · -- the rest divides what the first prime leaves, and so is free of that prime as well
      obtain ⟨hnum, hnumf⟩ := strip_spec h.head.two_le hn
      obtain ⟨hden, hdenf⟩ := strip_spec h.head.two_le hd
      have hrest := ih h.tail (strip_pos h.head.two_le hn) (strip_pos h.head.two_le hd)
      have hdvd1 : (strip p num).1 ∣ num := ⟨_, hnum.symm⟩
      have hdvd2 : (strip p den).1 ∣ den := ⟨_, hden.symm⟩
      refine ⟨by simpa using hrest.length, hrest.num_dvd.trans hdvd1, hrest.den_dvd.trans hdvd2,
        hrest.num_pos, hrest.den_pos, ?_, ?_, ?_⟩
      · intro q hq
        rcases List.mem_cons.mp hq with rfl | hq
        · exact fun hdvd => hnumf (hdvd.trans hrest.num_dvd)
        · exact hrest.num_free q hq
      · intro q hq
        rcases List.mem_cons.mp hq with rfl | hq
        · exact fun hdvd => hdenf (hdvd.trans hrest.den_dvd)
        · exact hrest.den_free q hq
      · have hp := h.head_pos
        have hs : (0 : ℚ) < (strip p den).1 := by
          exact_mod_cast strip_pos h.head.two_le hd
        have hprod := hrest.product
        simp only [powerProduct_cons]
        rw [mul_left_comm, hprod, zpow_sub₀ hp.ne', zpow_natCast, zpow_natCast]
        conv_rhs => rw [← hnum, ← hden]
        push_cast
        field_simp

/-- Splitting a ratio gives exponents and a residual that multiply to the ratio, and the primes
do not divide the residual. -/
theorem split_spec {primes : List Nat} (h : Distinct primes) (q : ℚ) :
    (split primes q).1.length = primes.length ∧ Free primes (split primes q).2 ∧
      (split primes q).2 * powerProduct primes (split primes q).1 = q := by
  unfold split
  split
  · next hq =>
    subst hq
    exact ⟨by simp, Free.zero primes, by simp⟩
  · next hq =>
    have hs := splitParts_spec h (Int.natAbs_pos.mpr (Rat.num_ne_zero.mpr hq)) q.den_pos
    have hres : mkRat (splitParts primes q.num.natAbs q.den).2.1
        (splitParts primes q.num.natAbs q.den).2.2 =
          ((splitParts primes q.num.natAbs q.den).2.1 : ℚ) /
            (splitParts primes q.num.natAbs q.den).2.2 := by
      rw [Rat.mkRat_eq_div]
      push_cast
      rfl
    have hfree := Free.of_not_dvd h hs.num_free hs.den_free
    rw [← hres] at hfree
    have habs : (q.num.natAbs : ℚ) / q.den = |q| := by
      rw [Nat.cast_natAbs, Int.cast_abs, ← Nat.abs_cast q.den, ← abs_div, Rat.num_div_den]
    have hprod := hs.product
    rw [habs, ← hres] at hprod
    refine ⟨hs.length, ?_, ?_⟩
    · split
      · exact hfree.neg
      · exact hfree
    · split
      · next hneg => rw [neg_mul, hprod, abs_of_neg hneg, neg_neg]
      · next hpos => rw [hprod, abs_of_nonneg (not_lt.mp hpos)]

/-- The exponents of distinct primes in a ratio are their valuations. -/
theorem map_padicValRat_split {primes : List Nat} (h : Distinct primes) {q : ℚ} (hq : q ≠ 0) :
    primes.map (fun p => padicValRat p q) = (split primes q).1 := by
  obtain ⟨hlen, hfree, hprod⟩ := split_spec h q
  have hres : (split primes q).2 ≠ 0 := fun h0 => hq (by rw [← hprod, h0, zero_mul])
  have hvals := map_padicValRat_powerProduct h _ hlen hres hfree
  rwa [hprod] at hvals

/-- Exponents and a residual without the primes are those that splitting their product gives. -/
theorem split_eq_of_eq_mul {primes : List Nat} (h : Distinct primes) {es : List Int} {r q : ℚ}
    (hlen : es.length = primes.length) (hr : r ≠ 0) (hfree : Free primes r)
    (hq : q = r * powerProduct primes es) : split primes q = (es, r) := by
  obtain ⟨hlen', hfree', hprod⟩ := split_spec h q
  have hpos := powerProduct_pos h es
  have hpos' := powerProduct_pos h (split primes q).1
  have hr' : (split primes q).2 ≠ 0 := by
    intro h0
    rw [h0, zero_mul, hq] at hprod
    exact (mul_ne_zero hr hpos.ne') hprod.symm
  have hes : (split primes q).1 = es := by
    rw [← map_padicValRat_powerProduct h _ hlen' hr' hfree', hprod, hq,
      map_padicValRat_powerProduct h es hlen hr hfree]
  have hres : (split primes q).2 = r := by
    apply mul_right_cancel₀ hpos.ne'
    conv_lhs => rw [← hes]
    rw [hprod, hq]
  exact Prod.ext hes hres

end Intonation.Prime
