import Intonation.Proofs.Prime.Limit

/-!
# Unique factorizations

A ratio other than zero is in one way a product of powers of the first primes of the table and a
residual that none of them divides. The primes that factor it completely are the fewest first ones
that leave one as the residual of its magnitude, and there are none when a prime beyond the table
divides the numerator or the denominator.

## Main definitions

* `Prime.HasPrimeBeyondTable`: ratios that the table does not factor
* `Monzo.IsFactorization`: exponents and a residual that make up a ratio

## Main statements

* `Prime.limit?_eq_some_iff`, `Prime.limit?_eq_none_iff`: how many primes a ratio needs
* `Monzo.isFactorization_iff`: the one factorization of a ratio
* `Monzo.primeLimit_eq_ok_iff`, `Monzo.primeLimit_eq_error_iff`: complete factorizations
* `Monzo.factorization_unique`: factorizations over the first primes and complete ones
-/

namespace Intonation

namespace Prime

variable {q : ℚ} {found count : Nat}

/-! ## The fewest primes -/

/-- The sign of a ratio needs no primes. -/
theorem limit?_abs (q : ℚ) : limit? |q| = limit? q := by
  rcases abs_choice q with h | h <;> simp [limit?, h]

/-- The primes that a ratio needs are the fewest over which nothing of its magnitude is left. -/
theorem isLeast_of_limit? (h0 : q ≠ 0) (h : limit? q = some found) :
    IsLeast {count | count ≤ tableSize ∧ (split (table.take count) |q|).2 = 1} found := by
  have hpos : 0 < |q| := abs_pos.mpr h0
  rw [← limit?_abs] at h
  refine ⟨limit?_spec hpos h, ?_⟩
  rintro count ⟨-, hone⟩
  rcases exists_padicValRat_of_limit? hpos.ne' h with rfl | ⟨i, p, hp, rfl, hval⟩
  · exact Nat.zero_le _
  · -- the last prime that is needed is among those that leave nothing
    by_contra hlt
    refine hval (padicValRat_of_split_eq_one (prime_of_mem_table (mem_of_getElem? hp)) ?_ hone)
    rw [mem_take_iff hp]
    omega

/-- A prime beyond the table divides one of the terms of a ratio. -/
def HasPrimeBeyondTable (q : ℚ) : Prop :=
  ∃ p : Nat, p.Prime ∧ p ∉ table ∧ (p ∣ q.num.natAbs ∨ p ∣ q.den)

theorem hasPrimeBeyondTable_abs : HasPrimeBeyondTable |q| ↔ HasPrimeBeyondTable q := by
  unfold HasPrimeBeyondTable
  rcases abs_choice q with h | h <;> simp [h]

theorem not_hasPrimeBeyondTable (h0 : q ≠ 0) (h : (split (table.take count) |q|).2 = 1) :
    ¬ HasPrimeBeyondTable q := by
  rw [← hasPrimeBeyondTable_abs]
  rintro ⟨p, hp, hmem, hdvd⟩
  have hval := padicValRat_of_split_eq_one hp (fun h => hmem (List.mem_of_mem_take h)) h
  exact not_or.mpr ((padicValRat_eq_zero_iff (abs_pos.mpr h0).ne' hp).mp hval) hdvd

theorem limit?_eq_none_iff (h0 : q ≠ 0) : limit? q = none ↔ HasPrimeBeyondTable q := by
  constructor
  · intro h
    obtain ⟨p, hp, hlarge, hdvd⟩ := exists_prime_of_limit?_eq_none h0 h
    exact ⟨p, hp, fun hmem => not_le.mpr hlarge (mem_table.mp hmem).2, hdvd⟩
  · intro h
    by_contra hsome
    obtain ⟨found, hfound⟩ := Option.ne_none_iff_exists'.mp hsome
    exact not_hasPrimeBeyondTable h0 (isLeast_of_limit? h0 hfound).1.2 h

theorem limit?_eq_some_iff (h0 : q ≠ 0) : limit? q = some found ↔
    IsLeast {count | count ≤ tableSize ∧ (split (table.take count) |q|).2 = 1} found := by
  refine ⟨isLeast_of_limit? h0, fun h => ?_⟩
  cases hlimit : limit? q with
  | some k => rw [(isLeast_of_limit? h0 hlimit).unique h]
  | none => exact absurd ((limit?_eq_none_iff h0).mp hlimit) (not_hasPrimeBeyondTable h0 h.1.2)

end Prime

namespace Monzo
open Intonation.Prime

variable {q : ℚ} {count k : Nat} {parts : List Int × ℚ} {es : List Int}

/-! ## Factorizations over the first primes -/

/-- Exponents of the first primes, and a residual that none of them divides, that multiply to a
ratio. -/
structure IsFactorization (count : Nat) (q : ℚ) (parts : List Int × ℚ) : Prop where
  length : parts.1.length = count
  free : ∀ p ∈ table.take count, ¬ p ∣ parts.2.num.natAbs ∧ ¬ p ∣ parts.2.den
  product : parts.2 * powerProduct table parts.1 = q

theorem IsFactorization.residual_ne_zero (h : IsFactorization count q parts) (h0 : q ≠ 0) :
    parts.2 ≠ 0 :=
  left_ne_zero_of_mul (h.product.trans_ne h0)

/-- A ratio has one factorization over the first primes, which is the one that is found. -/
theorem isFactorization_iff (h0 : q ≠ 0) (hcount : count ≤ tableSize) :
    IsFactorization count q parts ↔ factor count q = .ok parts := by
  have hd := distinct_table.take count
  have hlen : (table.take count).length = count := by
    rw [List.length_take, length_table, min_eq_left hcount]
  rw [factor_eq_ok_iff, and_iff_right hcount]
  constructor
  · intro h
    have hres := h.residual_ne_zero h0
    refine (split_eq_of_eq_mul hd (h.length.trans hlen.symm) hres
      ((Free.iff_not_dvd hd hres).mpr h.free) ?_).symm
    rw [powerProduct_take table _ h.length.le, h.product]
  · rintro rfl
    obtain ⟨hlength, hfree, hproduct⟩ := split_spec hd q
    have hres := left_ne_zero_of_mul (hproduct.trans_ne h0)
    rw [powerProduct_take table _ (hlength.trans hlen).le] at hproduct
    exact ⟨hlength.trans hlen, (Free.iff_not_dvd hd hres).mp hfree, hproduct⟩

/-- The powers of primes are positive, so the residual has the sign of the ratio. -/
theorem IsFactorization.sign_eq (h : IsFactorization count q parts) :
    SignType.sign parts.2 = SignType.sign q := by
  rw [← h.product, sign_mul, sign_pos (powerProduct_pos distinct_table _), mul_one]

/-! ## Complete factorizations -/

theorem exists_factor_iff : (∃ es, factor count q = .ok (es, 1)) ↔
    count ≤ tableSize ∧ (split (table.take count) q).2 = 1 := by
  constructor
  · rintro ⟨es, h⟩
    obtain ⟨hcount, hparts⟩ := factor_eq_ok_iff.mp h
    exact ⟨hcount, congrArg Prod.snd hparts.symm⟩
  · rintro ⟨hcount, hone⟩
    exact ⟨_, factor_eq_ok_iff.mpr ⟨hcount, Prod.ext rfl hone.symm⟩⟩

/-- The number of primes that factor a ratio completely is the least over which its magnitude
leaves nothing. -/
theorem primeLimit_eq_ok_iff : primeLimit q = .ok k ↔
    q ≠ 0 ∧ IsLeast {count | ∃ es, factor count |q| = .ok (es, 1)} k := by
  unfold primeLimit
  by_cases h0 : q = 0
  · simp [h0]
  · simp only [exists_factor_iff, ← limit?_eq_some_iff h0]
    rw [if_neg h0, and_iff_right h0]
    cases limit? q <;> simp

/-- No number of primes factors zero, or a ratio with a prime beyond the table. -/
theorem primeLimit_eq_error_iff {f : Fault} : primeLimit q = .error f ↔
    q = 0 ∧ f = .zeroFactorization ∨
      q ≠ 0 ∧ HasPrimeBeyondTable q ∧ f = .primeBeyondTable |q| := by
  unfold primeLimit
  by_cases h0 : q = 0
  · simp [h0, eq_comm]
  · rw [if_neg h0, ← limit?_eq_none_iff h0, rat_abs_eq]
    cases limit? q <;> simp [h0, eq_comm]

/-- A complete vector holds the whole ratio, which is positive. -/
theorem factorCompletely_eq_ok_iff : factorCompletely q = .ok es ↔
    0 < q ∧ ∃ k, primeLimit q = .ok k ∧ factor k q = .ok (es, 1) := by
  constructor
  · intro h
    obtain ⟨k, hk, h⟩ := bind_eq_ok.mp h
    obtain ⟨parts, hparts, h⟩ := bind_eq_ok.mp h
    split at h
    · next hone =>
      obtain rfl := Except.ok.inj h
      have hfactor : factor k q = .ok (parts.1, 1) := hparts.trans (by rw [← hone])
      refine ⟨?_, k, hk, hfactor⟩
      have h0 := (primeLimit_eq_ok_iff.mp hk).1
      have hproduct := ((isFactorization_iff h0 (factor_eq_ok_iff.mp hparts).1).mpr hparts).product
      rw [← hproduct, hone, one_mul]
      exact powerProduct_pos distinct_table _
    · cases h
  · rintro ⟨-, k, hk, hfactor⟩
    exact bind_eq_ok.mpr ⟨k, hk, bind_eq_ok.mpr ⟨_, hfactor, if_pos rfl⟩⟩

/-- Of a positive ratio over the primes of the table, the complete vector is found. -/
theorem exists_factorCompletely (hq : 0 < q) (hk : primeLimit q = .ok k) :
    ∃ es, factorCompletely q = .ok es := by
  obtain ⟨es, hfactor⟩ := (primeLimit_eq_ok_iff.mp hk).2.1
  rw [abs_of_pos hq] at hfactor
  exact ⟨es, factorCompletely_eq_ok_iff.mpr ⟨hq, k, hk, hfactor⟩⟩

/-- A ratio that is not zero splits in one way into exponents of as many first primes of the table
as asked for and a residual that none of them divides, which has its sign. The number of primes that
factor it completely is the least over which its magnitude leaves nothing; there is none for zero
and for ratios with a prime beyond the table. The positive ratios with that number of primes, and no
others, have a complete vector, which is the one over those primes. -/
theorem factorization_unique (q : ℚ) :
    (q ≠ 0 → ∀ count ≤ tableSize, ∃ parts, factor count q = .ok parts ∧
      IsFactorization count q parts ∧ SignType.sign parts.2 = SignType.sign q ∧
      ∀ other, IsFactorization count q other → other = parts) ∧
    (∀ k, primeLimit q = .ok k ↔
      q ≠ 0 ∧ IsLeast {count | ∃ es, factor count |q| = .ok (es, 1)} k) ∧
    (∀ f, primeLimit q = .error f ↔ q = 0 ∧ f = .zeroFactorization ∨
      q ≠ 0 ∧ HasPrimeBeyondTable q ∧ f = .primeBeyondTable |q|) ∧
    ((∃ es, factorCompletely q = .ok es) ↔ 0 < q ∧ ∃ k, primeLimit q = .ok k) ∧
    ∀ k es, primeLimit q = .ok k → factorCompletely q = .ok es → factor k q = .ok (es, 1) := by
  refine ⟨fun h0 count hcount => ?_, fun _ => primeLimit_eq_ok_iff,
    fun _ => primeLimit_eq_error_iff, ⟨?_, ?_⟩, ?_⟩
  · have hfactor : factor count q = .ok (split (table.take count) q) :=
      factor_eq_ok_iff.mpr ⟨hcount, rfl⟩
    have hparts := (isFactorization_iff h0 hcount).mpr hfactor
    refine ⟨_, hfactor, hparts, hparts.sign_eq, fun other hother => ?_⟩
    exact Except.ok.inj (((isFactorization_iff h0 hcount).mp hother).symm.trans hfactor)
  · rintro ⟨es, hes⟩
    obtain ⟨hpos, k, hk, -⟩ := factorCompletely_eq_ok_iff.mp hes
    exact ⟨hpos, k, hk⟩
  · rintro ⟨hpos, k, hk⟩
    exact exists_factorCompletely hpos hk
  · intro k es hk hes
    obtain ⟨-, k', hk', hfactor⟩ := factorCompletely_eq_ok_iff.mp hes
    obtain rfl := Except.ok.inj (hk'.symm.trans hk)
    exact hfactor

/-- Over three primes, eleven stays in the residual with the sign. Five primes leave nothing else,
and the complete vector is had of the magnitude only. -/
theorem factorization_unique_negative :
    let q : ℚ := -45 / 22
    q ≠ 0 ∧ 3 ≤ tableSize ∧ factor 3 q = .ok ([-1, 2, 1], -1 / 11) ∧
      IsLeast {count | ∃ es, factor count |q| = .ok (es, 1)} 5 ∧
      ¬ ∃ es, factorCompletely q = .ok es := by
  intro q
  have h0 : q ≠ 0 := by norm_num [q]
  have htake : table.take 3 = [2, 3, 5] := by decide +kernel
  obtain ⟨hsplit, hlimit, -, hcomplete, -⟩ := factorization_unique q
  obtain ⟨parts, hfactor, -, -, hunique⟩ := hsplit h0 3 (by decide)
  have hparts : IsFactorization 3 q ([-1, 2, 1], -1 / 11) := by
    refine ⟨rfl, ?_, ?_⟩
    · rw [htake]
      decide +kernel
    · rw [← powerProduct_take table [-1, 2, 1] (le_refl 3), htake]
      norm_num [q, powerProduct]
  have hfound : limit? q = some 5 := by decide +kernel
  have hprimes : primeLimit q = .ok 5 := by rw [primeLimit, if_neg h0, hfound]
  refine ⟨h0, by decide, hunique _ hparts ▸ hfactor, ((hlimit 5).mp hprimes).2, ?_⟩
  intro hes
  have hpos := (hcomplete.mp hes).1
  norm_num [q] at hpos

end Monzo

end Intonation
