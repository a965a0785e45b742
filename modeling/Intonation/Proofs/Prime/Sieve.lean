import Intonation.Prime.Sieve
import Intonation.Proofs.Ratio.Root
import Mathlib.Data.Nat.Prime.Basic
import Mathlib.Tactic

/-!
# The sieve keeps exactly the primes

Before the turn of a number, the flags that are left are those of primes and of numbers without a
prime factor below it. A number that has its flag at its turn is therefore prime. Its turn clears
the flags of the composites that have it as their least prime factor, which are not below its
square. So no composite keeps its flag once the square of the next number passes the limit.

## Main definitions

* `Sieved`: the flags before the turn of a number

## Main statements

* `Sieved.crossOut`, `sieved_foldl`: what one turn and a run of turns leave
* `getElem?_sieve`: the flags that are left are those of the primes
* `mem_primesUpTo`, `primesUpTo_pairwise`, `primesUpTo_exact`: the primes up to a limit
-/

namespace Intonation.Prime

variable {limit bound n m step : Nat} {flags : List Bool}

/-! ## Clearing flags -/

/-- The flags that are kept are those not at a whole number of steps from the first cleared one. -/
theorem getElem?_clearEvery (hstep : 0 < step) (flags : List Bool) (skip n : Nat) :
    (clearEvery step flags skip)[n]? = some true ↔
      flags[n]? = some true ∧ ¬ (skip ≤ n ∧ step ∣ n - skip) := by
  induction flags, skip using clearEvery.induct step generalizing n with
  | case1 skip => simp [clearEvery]
  | case2 flag flags ih =>
    cases n with
    | zero => simp [clearEvery]
    | succ n =>
      -- from the flag just cleared, the next one to clear is a step away
      have hnext : (step - 1 ≤ n ∧ step ∣ n - (step - 1)) ↔ step ∣ n + 1 := by
        constructor
        · rintro ⟨hle, hdvd⟩
          rw [show n + 1 = n - (step - 1) + step by omega]
          exact Nat.dvd_add hdvd dvd_rfl
        · intro hdvd
          have hle := Nat.le_of_dvd n.succ_pos hdvd
          refine ⟨by omega, ?_⟩
          rw [show n - (step - 1) = n + 1 - step by omega]
          exact Nat.dvd_sub hdvd dvd_rfl
      rw [clearEvery, List.getElem?_cons_succ, List.getElem?_cons_succ, ih, hnext]
      simp
  | case3 flag flags skip ih =>
    cases n with
    | zero => simp [clearEvery]
    | succ n =>
      rw [clearEvery, List.getElem?_cons_succ, List.getElem?_cons_succ, ih,
        Nat.succ_eq_add_one, Nat.add_le_add_iff_right, Nat.add_sub_add_right]

theorem getElem?_crossOut (hn : 0 < n) : (crossOut flags n)[m]? = some true ↔
    flags[m]? = some true ∧ ¬ (flags[n]? = some true ∧ n * n ≤ m ∧ n ∣ m) := by
  rw [crossOut]
  split
  · next hflag =>
    rw [getElem?_clearEvery hn, and_iff_right hflag]
    have hdvd : n * n ≤ m ∧ n ∣ m - n * n ↔ n * n ≤ m ∧ n ∣ m :=
      and_congr_right fun hle => Nat.dvd_sub_iff_left hle (dvd_mul_right n n)
    rw [hdvd]
  · next hflag =>
    rw [and_iff_left fun h => hflag h.1]

/-! ## Taking turns -/

/-- The flags up to a limit before the turn of `bound`: a number has its flag if it is prime or all
its prime factors are still to have their turns. -/
def Sieved (limit bound : Nat) (flags : List Bool) : Prop :=
  ∀ n, flags[n]? = some true ↔ 2 ≤ n ∧ n ≤ limit ∧ (n.Prime ∨ bound ≤ n.minFac)

theorem sieved_candidates (limit : Nat) : Sieved limit 2 (candidates limit) := by
  intro n
  match n with
  | 0 => simp [candidates]
  | 1 => simp [candidates]
  | n + 2 =>
    have hfactor : 2 ≤ (n + 2).minFac := (Nat.minFac_prime (by omega)).two_le
    have hlimit : n < limit - 1 ↔ n + 2 ≤ limit := by omega
    simp [candidates, List.getElem?_replicate, hfactor, hlimit]

/-- A composite whose least prime factor is `n` is not below the square of `n`, so that the turn of
`n` takes the flags of all of them and of no prime. -/
theorem outlasts_iff (hn : 2 ≤ n) (hm : 2 ≤ m) :
    (m.Prime ∨ n ≤ m.minFac) ∧ ¬ (n.Prime ∧ n * n ≤ m ∧ n ∣ m) ↔ m.Prime ∨ n + 1 ≤ m.minFac := by
  have hfactor : m.minFac.Prime := Nat.minFac_prime (by omega)
  constructor
  · rintro ⟨hp | hle, hkept⟩
    · exact .inl hp
    · by_contra hnot
      obtain ⟨hp, hlt⟩ := not_or.mp hnot
      have hleast : m.minFac = n := by omega
      have hsq := Nat.minFac_sq_le_self (by omega) hp
      rw [hleast, pow_two] at hsq
      exact hkept ⟨hleast ▸ hfactor, hsq, hleast ▸ m.minFac_dvd⟩
  · rintro (hp | hlt)
    · refine ⟨.inl hp, ?_⟩
      rintro ⟨hprime, hsq, hdvd⟩
      obtain rfl := (Nat.prime_dvd_prime_iff_eq hprime hp).mp hdvd
      have := Nat.mul_le_mul_left n hn
      omega
    · refine ⟨.inr (by omega), ?_⟩
      rintro ⟨-, -, hdvd⟩
      have := Nat.minFac_le_of_dvd hn hdvd
      omega

namespace Sieved

/-- At its turn a number has its flag just when it is prime. -/
theorem flag_iff_prime (h : Sieved limit n flags) (hn : 2 ≤ n) (hle : n ≤ limit) :
    flags[n]? = some true ↔ n.Prime := by
  rw [h n, and_iff_right hn, and_iff_right hle, or_iff_left_of_imp]
  intro hge
  have hleast : n.minFac = n := le_antisymm (Nat.minFac_le (by omega)) hge
  exact hleast ▸ Nat.minFac_prime (by omega)

/-- A turn leaves the flags as they are to be before the next one. -/
theorem crossOut (h : Sieved limit n flags) (hn : 2 ≤ n) (hle : n ≤ limit) :
    Sieved limit (n + 1) (crossOut flags n) := by
  intro m
  rw [getElem?_crossOut (by omega), h.flag_iff_prime hn hle, h m, and_assoc, and_assoc]
  refine and_congr_right fun hm => and_congr_right fun _ => ?_
  exact outlasts_iff hn hm

/-- Once the square of the next number passes the limit, only primes have flags. -/
theorem flag_iff (h : Sieved limit bound flags) (hbound : limit < bound * bound) :
    flags[n]? = some true ↔ n.Prime ∧ n ≤ limit := by
  rw [h n]
  constructor
  · rintro ⟨hn, hle, hp | hge⟩
    · exact ⟨hp, hle⟩
    · refine ⟨?_, hle⟩
      by_contra hp
      have hsq := Nat.minFac_sq_le_self (by omega) hp
      have := Nat.mul_le_mul hge hge
      rw [pow_two] at hsq
      omega
  · rintro ⟨hp, hle⟩
    exact ⟨hp.two_le, hle, .inl hp⟩

end Sieved

/-- The flags after the turns of the first numbers from two on. -/
theorem sieved_foldl {count : Nat} (hcount : count ≤ limit - 1) :
    Sieved limit (2 + count) ((List.range' 2 count).foldl crossOut (candidates limit)) := by
  induction count with
  | zero => exact sieved_candidates limit
  | succ count ih =>
    rw [List.range'_1_concat, List.foldl_concat]
    exact (ih (by omega)).crossOut (by omega) (by omega)

/-! ## The primes up to a limit -/

/-- The turns up to the square root of the limit suffice. -/
theorem getElem?_sieve : (sieve limit)[n]? = some true ↔ n.Prime ∧ n ≤ limit := by
  obtain ⟨hroot, hlt⟩ := Ratio.floorRoot_spec two_pos limit
  have hle : Ratio.floorRoot limit 2 ≤ limit := (Nat.le_self_pow two_ne_zero _).trans hroot
  have hturns : Ratio.floorRoot limit 2 - 1 ≤ limit - 1 := by omega
  refine (sieved_foldl hturns).flag_iff ?_
  calc limit < (Ratio.floorRoot limit 2 + 1) ^ 2 := hlt
    _ ≤ (2 + (Ratio.floorRoot limit 2 - 1)) ^ 2 := Nat.pow_le_pow_left (by omega) 2
    _ = (2 + (Ratio.floorRoot limit 2 - 1)) * (2 + (Ratio.floorRoot limit 2 - 1)) := pow_two _

theorem mem_primesUpTo {p : Nat} : p ∈ primesUpTo limit ↔ p.Prime ∧ p ≤ limit := by
  rw [← getElem?_sieve]
  simp [primesUpTo, List.mem_zipIdx_iff_getElem?]

theorem primesUpTo_pairwise (limit : Nat) : (primesUpTo limit).Pairwise (· < ·) := by
  have hsub : (primesUpTo limit).Sublist ((sieve limit).zipIdx.map (·.2)) :=
    List.filter_sublist.map _
  rw [List.zipIdx_map_snd] at hsub
  exact (List.pairwise_lt_range').sublist hsub

/-- The sieve yields the primes not exceeding the limit, all of them and nothing else, in strictly
ascending order. -/
theorem primesUpTo_exact (limit : Nat) : (primesUpTo limit).Pairwise (· < ·) ∧
    ∀ p, p ∈ primesUpTo limit ↔ p.Prime ∧ p ≤ limit :=
  ⟨primesUpTo_pairwise limit, fun _ => mem_primesUpTo⟩

end Intonation.Prime
