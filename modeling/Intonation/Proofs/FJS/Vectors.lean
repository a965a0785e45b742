import Intonation.Proofs.FJS.Naming
import Intonation.Proofs.Monzo.Comparison
import Intonation.Proofs.Monzo.Equave

/-!
# Values of twos and threes

A value with no exponents beyond those of two and three is read as a vector of them, however many
zeros stand behind. Another such value is strictly equal to it exactly when both are read as the
same vector, as long as the prime table reaches as far as the zeros.

## Main statements

* `Skeleton.ofMonzo_of_isVector`, `Skeleton.isVector_exps_of_flat`: reading a vector off a value
* `Skeleton.strictEquals_iff`, `Skeleton.strictEquals_of_flat`: strict equality of values of twos
  and threes
-/

namespace Intonation.Skeleton
open Double Monzo Intonation.Prime

variable {s : Settings} {m n : Monzo} {es : List ℚ}

/-- The twos and threes of a vector are its first exponents. -/
theorem ofMonzo_of_isVector (hm : m.IsVector s es) :
    ofMonzo m = .ok ⟨es.getD 0 0, es.getD 1 0⟩ := by
  have htwos := hm.exponentOf (k := 0) (p := 2) (by decide +kernel)
  have hthrees := hm.exponentOf (k := 1) (p := 3) (by decide +kernel)
  exact bind_eq_ok.mpr ⟨_, htwos, bind_eq_ok.mpr ⟨_, hthrees, rfl⟩⟩

/-- A vector of twos and threes, with zeros behind it. -/
theorem padded_of_flat {k : Nat} (hflat : ∀ e ∈ es.drop 2, e = 0) (h2 : 2 ≤ k)
    (hlen : es.length ≤ k) : padded k es = padded k (exps ⟨es.getD 0 0, es.getD 1 0⟩) := by
  obtain ⟨j, rfl⟩ : ∃ j, k = j + 2 := ⟨k - 2, by omega⟩
  have hnil : ∀ n, padded (n + 1) [] = 0 :: padded n [] := by
    intro n
    rw [padded_nil, padded_nil, List.replicate_succ]
  rw [exps, padded_succ_cons, padded_succ_cons]
  rcases es with - | ⟨a, - | ⟨b, rest⟩⟩
  · rw [hnil, hnil]
    rfl
  · rw [padded_succ_cons, hnil]
    rfl
  · rw [padded_succ_cons, padded_succ_cons, padded_nil]
    refine congrArg _ (congrArg _ ?_)
    have hzero : rest = List.replicate rest.length 0 := List.eq_replicate_of_mem hflat
    simp only [List.length_cons] at hlen
    rw [padded, hzero, List.replicate_append_replicate, List.length_replicate]
    congr 1
    omega

/-- Zeros behind the twos and threes of a vector may be left out. -/
theorem isVector_exps_of_flat (hm : m.IsVector s es) (hflat : ∀ e ∈ es.drop 2, e = 0) :
    let v : Skeleton := ⟨es.getD 0 0, es.getD 1 0⟩
    Monzo.IsVector s { exps := v.exps } v.exps := by
  intro v
  have hwide := hm.extended (max 2 es.length)
  rw [padded_of_flat hflat (le_max_left _ _) (le_max_right _ _)] at hwide
  exact ⟨rfl, rfl, rfl, zero_beq_zero, bounded_of_padded hwide⟩

/-- Values of twos and threes are strictly equal when they are the same twos and threes, unless the
prime table is too short for one of them. -/
theorem strictEquals_iff {w : Skeleton} (hn : n.IsVector s w.exps) (hm : m.IsVector s es)
    (hflat : ∀ e ∈ es.drop 2, e = 0) : n.strictEquals s m = .ok true ↔
      w = ⟨es.getD 0 0, es.getD 1 0⟩ ∧ m.components ≤ tableSize := by
  have htwo : n.components = 2 := hn.components.trans w.length_exps
  constructor
  · intro heq
    constructor
    · have htwos := getD_eq_of_strictEquals hn hm heq 0
      have hthrees := getD_eq_of_strictEquals hn hm heq 1
      exact Skeleton.mk.injEq .. ▸ ⟨htwos, hthrees⟩
    · have halign := alignable_of_strictEquals heq
      unfold Alignable at halign
      have htable : tableSize = 1000 := rfl
      omega
  · rintro ⟨rfl, hlen⟩
    have hmax : max 2 m.components ≤ tableSize := max_le (by decide) hlen
    refine strictEquals_of_spread (htwo ▸ by decide) hlen hn.bounded hm.bounded
      (hn.time.trans hm.time.symm) hn.uncorrected hm.uncorrected ?_
    rw [htwo, hn.parts_eq, hm.parts_eq, spread_one hmax, spread_one hmax,
      padded_of_flat hflat (le_max_left _ _) (hm.components ▸ le_max_right _ _)]

/-- Comparing twos and threes with themselves succeeds, unless the zeros behind them reach beyond
the prime table. -/
theorem strictEquals_of_flat (hm : m.IsVector s es) (hflat : ∀ e ∈ es.drop 2, e = 0)
    (hn : n.IsVector s (exps ⟨es.getD 0 0, es.getD 1 0⟩)) : n.strictEquals s m =
      if m.components ≤ tableSize then .ok true else .error .tableExhausted := by
  split
  · next hlen => exact (strictEquals_iff hn hm hflat).mpr ⟨rfl, hlen⟩
  · next hlen =>
    have htwo : n.components = 2 := hn.components
    have htable : tableSize = 1000 := rfl
    rw [Monzo.strictEquals, align, widen_of_lt (by omega) (by omega)]
    rfl

end Intonation.Skeleton
