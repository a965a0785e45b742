import Intonation.Proofs.Prime.Position

/-!
# Complete factorizations

A ratio is factored completely over as many primes of the table as it needs. Looking for that many
primes divides every prime of the table out of the numerator and the denominator, so it finds none
just when a prime beyond the table divides one of them.

## Main statements

* `limit?_spec`, `exists_padicValRat_of_limit?`: what the number of primes found means
* `exists_prime_of_limit?_eq_none`, `limit?_eq_none`: when none is found
* `Monzo.factorCompletely_cases`: the complete factorization of a positive ratio
-/

namespace Intonation.Prime

variable {primes : List Nat} {start limit num den found p : Nat} {q : ℚ}

/-- A number and what is left of it after dividing a prime out. -/
theorem cast_strip (hp : 2 ≤ p) {n : Nat} (hn : 0 < n) :
    (n : ℚ) = (strip p n).1 * (p : ℚ) ^ (strip p n).2 := by
  exact_mod_cast (strip_spec hp hn).1.symm

/-- The primes that are found hold the whole ratio, unless nothing was left of it to begin with. -/
theorem limitFrom_spec (hd : Distinct primes) (hnum : 0 < num) (hden : 0 < den)
    (h : limitFrom primes start limit num den = some found) :
    (found = limit ∧ num = 1 ∧ den = 1) ∨ ∃ es : List Int, es.length ≤ primes.length ∧
      found = start + es.length ∧ (num : ℚ) / den = powerProduct primes es := by
  induction primes generalizing start limit num den with
  | nil =>
    rw [limitFrom] at h
    split at h
    · next hone =>
      cases h
      exact .inl ⟨rfl, hone⟩
    · cases h
  | cons p primes ih =>
    rw [limitFrom] at h
    split at h
    · next hone =>
      cases h
      exact .inl ⟨rfl, hone⟩
    · next hone =>
      right
      have hp := hd.head.two_le
      have hp0 : (p : ℚ) ≠ 0 := hd.head_pos.ne'
      -- the quotient is that of the rests times a power of the prime
      have hquotient : (num : ℚ) / den = (p : ℚ) ^ ((strip p num).2 - (strip p den).2 : Int) *
          ((strip p num).1 / (strip p den).1) := by
        rw [cast_strip hp hnum, cast_strip hp hden, zpow_sub₀ hp0, zpow_natCast, zpow_natCast]
        exact (mul_div_mul_comm _ _ _ _).trans (mul_comm _ _)
      rcases ih hd.tail (strip_pos hp hnum) (strip_pos hp hden) h with
        ⟨hfound, hup, hdown⟩ | ⟨es, hlen, hfound, hproduct⟩
      · split at hfound
        · refine ⟨[(strip p num).2 - (strip p den).2], by simp, hfound, ?_⟩
          rw [hquotient, hup, hdown, powerProduct_cons, powerProduct_nil, Nat.cast_one, div_one]
        · next hcounts =>
          have hnum' := (strip_spec hp hnum).1
          have hden' := (strip_spec hp hden).1
          rw [hup, show (strip p num).2 = 0 by omega] at hnum'
          rw [hdown, show (strip p den).2 = 0 by omega] at hden'
          exact absurd ⟨hnum'.symm, hden'.symm⟩ hone
      · refine ⟨((strip p num).2 - (strip p den).2) :: es, by simpa using hlen, ?_, ?_⟩
        · rw [hfound, List.length_cons]
          omega
        · rw [hquotient, hproduct, powerProduct_cons]

/-- The primes that a positive ratio needs are primes of the table, and hold the whole ratio. -/
theorem limit?_spec (hq : 0 < q) (h : limit? q = some found) :
    found ≤ tableSize ∧ (split (table.take found) q).2 = 1 := by
  have hnum : 0 < q.num.natAbs := Int.natAbs_pos.mpr (Rat.num_pos.mpr hq).ne'
  have hterms : (q.num.natAbs : ℚ) / q.den = q := by
    rw [Nat.cast_natAbs, abs_of_pos (Rat.num_pos.mpr hq), Rat.num_div_den]
  rcases limitFrom_spec distinct_table hnum q.den_pos h with
    ⟨rfl, hone, hden⟩ | ⟨es, hlen, rfl, hproduct⟩
  · refine ⟨Nat.zero_le _, ?_⟩
    rw [hone, hden, Nat.cast_one, div_one] at hterms
    rw [← hterms]
    rfl
  · rw [length_table] at hlen
    rw [Nat.zero_add]
    refine ⟨hlen, ?_⟩
    have htake : (table.take es.length).length = es.length := by
      rw [List.length_take, length_table, min_eq_left hlen]
    rw [split_eq_of_eq_mul (distinct_table.take _) htake.symm one_ne_zero (.one _)]
    rw [one_mul, powerProduct_take table es le_rfl, ← hproduct, hterms]

/-- The last of the primes that are found divides the numerator or the denominator. -/
theorem exists_dvd_of_limitFrom (hd : Distinct primes) (hnum : 0 < num) (hden : 0 < den)
    (h : limitFrom primes start limit num den = some found) : found = limit ∨
      ∃ k p, primes[k]? = some p ∧ found = start + k + 1 ∧ (p ∣ num ∨ p ∣ den) := by
  induction primes generalizing start limit num den with
  | nil =>
    rw [limitFrom] at h
    split at h
    · cases h
      exact .inl rfl
    · cases h
  | cons p primes ih =>
    rw [limitFrom] at h
    split at h
    · cases h
      exact .inl rfl
    · have hp := hd.head.two_le
      obtain ⟨hup, -⟩ := strip_spec hp hnum
      obtain ⟨hdown, -⟩ := strip_spec hp hden
      rcases ih hd.tail (strip_pos hp hnum) (strip_pos hp hden) h with
        hfound | ⟨k, r, hr, hfound, hdvd⟩
      · split at hfound
        · next hcounts =>
          refine .inr ⟨0, p, rfl, hfound, ?_⟩
          rcases (by omega : (strip p num).2 ≠ 0 ∨ (strip p den).2 ≠ 0) with hne | hne
          · exact .inl (hup ▸ (dvd_pow_self p hne).mul_left _)
          · exact .inr (hdown ▸ (dvd_pow_self p hne).mul_left _)
        · exact .inl hfound
      · refine .inr ⟨k + 1, r, hr, by omega, ?_⟩
        exact hdvd.imp (fun h => h.trans ⟨_, hup.symm⟩) fun h => h.trans ⟨_, hdown.symm⟩

/-- A ratio needs no primes beyond the last one that it has an exponent of. -/
theorem exists_padicValRat_of_limit? (hq : q ≠ 0) (h : limit? q = some found) : found = 0 ∨
    ∃ k p, table[k]? = some p ∧ found = k + 1 ∧ padicValRat p q ≠ 0 := by
  refine (exists_dvd_of_limitFrom distinct_table (Int.natAbs_pos.mpr (Rat.num_ne_zero.mpr hq))
    q.den_pos h).imp_right ?_
  rintro ⟨k, p, hp, hfound, hdvd⟩
  refine ⟨k, p, hp, hfound.trans (by omega), fun hval => ?_⟩
  have hprime := prime_of_mem_table (List.mem_of_getElem? hp)
  exact not_or.mpr ((padicValRat_eq_zero_iff hq hprime).mp hval) hdvd

/-- One needs no primes. -/
theorem limit?_one : limit? 1 = some 0 := by
  unfold limit?
  cases table <;> rfl

/-- When the primes do not exhaust a numerator and a denominator, another prime divides one. -/
theorem exists_prime_of_limitFrom_eq_none (hd : Distinct primes) (hnum : 0 < num) (hden : 0 < den)
    (h : limitFrom primes start limit num den = none) :
    ∃ p, p.Prime ∧ p ∉ primes ∧ (p ∣ num ∨ p ∣ den) := by
  induction primes generalizing start limit num den with
  | nil =>
    rw [limitFrom] at h
    split at h
    · cases h
    · next hone =>
      rcases not_and_or.mp hone with hne | hne
      · exact ⟨num.minFac, Nat.minFac_prime hne, by simp, .inl num.minFac_dvd⟩
      · exact ⟨den.minFac, Nat.minFac_prime hne, by simp, .inr den.minFac_dvd⟩
  | cons q primes ih =>
    rw [limitFrom] at h
    split at h
    · cases h
    · have hq := hd.head.two_le
      obtain ⟨p, hp, hmem, hdvd⟩ := ih hd.tail (strip_pos hq hnum) (strip_pos hq hden) h
      obtain ⟨hup, hupfree⟩ := strip_spec hq hnum
      obtain ⟨hdown, hdownfree⟩ := strip_spec hq hden
      refine ⟨p, hp, ?_, ?_⟩
      · rw [List.mem_cons, not_or]
        refine ⟨?_, hmem⟩
        rintro rfl
        exact hdvd.elim hupfree hdownfree
      · exact hdvd.imp (fun h => h.trans ⟨_, hup.symm⟩) fun h => h.trans ⟨_, hdown.symm⟩

/-- A ratio is not factored over the table when a prime beyond the table divides one of its
terms. -/
theorem exists_prime_of_limit?_eq_none (hq : q ≠ 0) (h : limit? q = none) :
    ∃ p, p.Prime ∧ tableLimit < p ∧ (p ∣ q.num.natAbs ∨ p ∣ q.den) := by
  obtain ⟨p, hp, hmem, hdvd⟩ := exists_prime_of_limitFrom_eq_none distinct_table
    (Int.natAbs_pos.mpr (Rat.num_ne_zero.mpr hq)) q.den_pos h
  refine ⟨p, hp, not_le.mp fun hle => hmem (mem_table.mpr ⟨hp, hle⟩), hdvd⟩

/-- A ratio with nothing left over the first primes has no other prime in it. -/
theorem padicValRat_of_split_eq_one (hp : p.Prime) (hmem : p ∉ table.take found)
    (h : (split (table.take found) q).2 = 1) : padicValRat p q = 0 := by
  rw [← (split_spec (distinct_table.take found) q).2.2, h, one_mul]
  exact padicValRat_powerProduct_of_notMem (distinct_table.take found) hp hmem _

/-- A positive ratio is not factored over the table if a prime beyond the table divides one of its
terms. -/
theorem limit?_eq_none (hq : 0 < q) (hp : p.Prime) (hlarge : tableLimit < p)
    (hdvd : p ∣ q.num.natAbs ∨ p ∣ q.den) : limit? q = none := by
  by_contra hsome
  obtain ⟨found, hfound⟩ := Option.ne_none_iff_exists'.mp hsome
  have hmem : p ∉ table.take found := fun hp' =>
    not_le.mpr hlarge (mem_table.mp (List.mem_of_mem_take hp')).2
  have hval := padicValRat_of_split_eq_one hp hmem (limit?_spec hq hfound).2
  exact not_or.mpr ((padicValRat_eq_zero_iff hq.ne' hp).mp hval) hdvd

/-- A prime with an exponent in a number divides the number. -/
theorem dvd_of_mem_zip_split {n : Int} (hn : n ≠ 0) {count : Nat} {e : Int}
    (h : (p, e) ∈ table.zip (split (table.take count) n).1) (he : e ≠ 0) : (p : Int) ∣ n := by
  obtain ⟨k, hk⟩ := List.mem_iff_getElem?.mp h
  obtain ⟨hp, hek⟩ := List.getElem?_zip_eq_some.mp hk
  rw [← map_padicValRat_split (distinct_table.take count) (by exact_mod_cast hn),
    List.getElem?_map] at hek
  obtain ⟨r, hr, hval⟩ := Option.map_eq_some_iff.mp hek
  obtain rfl : r = p := by
    rw [List.getElem?_take] at hr
    split at hr
    · exact Option.some.inj (hr.symm.trans hp)
    · cases hr
  by_contra hndvd
  rw [padicValRat.of_int, padicValInt.eq_zero_of_not_dvd hndvd] at hval
  exact he hval.symm

end Intonation.Prime

namespace Intonation.Monzo
open Intonation.Prime

/-- A positive ratio is factored completely over the table, unless a prime beyond the table divides
one of its terms. -/
theorem factorCompletely_cases {q : ℚ} (hq : 0 < q) :
    (∃ count, count ≤ tableSize ∧
      factorCompletely q = .ok (split (table.take count) q).1) ∨
    limit? q = none ∧ factorCompletely q = .error (.primeBeyondTable q.abs) := by
  unfold factorCompletely primeLimit
  rw [if_neg hq.ne']
  cases h : limit? q with
  | none => exact .inr ⟨rfl, rfl⟩
  | some count =>
    obtain ⟨hle, hone⟩ := limit?_spec hq h
    refine .inl ⟨count, hle, bind_eq_ok.mpr ⟨count, rfl, bind_eq_ok.mpr ⟨_,
      factor_eq_ok_iff.mpr ⟨hle, rfl⟩, ?_⟩⟩⟩
    rw [if_pos hone]

end Intonation.Monzo
