import Intonation.FJS.Comma
import Intonation.Proofs.Memo
import Intonation.Proofs.Monzo.Vector
import Intonation.Proofs.Prime.Position

/-!
# Commas as vectors

The comma of a prime from five up is a vector: some twos and threes, zeros, and a one at the
position of the prime. Which vector that is depends on the prime and on the flavor, while the
bounds in force only decide whether the comma can be built. A comma looked up therefore is the
comma that would be found anew.

## Main definitions

* `Comma.vector?`: the exponents of a comma
* `CommaMemo.Sound`: every comma filed has been found at some time

## Main statements

* `Comma.isVector_of_compute`, `Comma.exists_compute`: finding a comma
* `CommaMemo.Sound.of_comma`, `exists_comma`: looking one up
-/

namespace Intonation
open Double

variable {s : Settings} {m : Monzo} {es : List ℚ} {flavor : String} {j p : Nat}

namespace Monzo

/-- The first power of a vector. -/
theorem IsVector.exists_powRatio_one (h : IsVector s m es) (hden : 1 < s.maxPowDenominator) :
    ∃ v, m.powRatio s (1 : Int) = .ok v := by
  obtain ⟨x, hx⟩ : ∃ x, Double.ofRat? ((1 : Int) : ℚ) = some x :=
    Option.isSome_iff_exists.mp (by decide +kernel)
  have hpow : Ratio.pow? m.residual (1 : Int) = some 1 := by rw [h.residual, Ratio.pow?_one]
  have hsmall : residualOverflows s m.residual (1 : Int) = false := by
    simp [residualOverflows, h.residual]
  have hfinite : x.isFinite := isFinite_of_ofRat? hx
  have hexps : m.exps = m.exps.map (· * ((1 : Int) : ℚ)) := by simp
  unfold Monzo.powRatio
  rw [if_neg (by rw [Rat.den_intCast]; omega), hsmall, if_neg (by simp), hpow]
  refine ⟨_, bind_eq_ok.mpr ⟨x, Number.toDouble_ratio_eq_ok.mpr hx, bind_eq_ok.mpr
    ⟨_, checked_eq_ok_iff.mpr ⟨?_, rfl⟩, rfl⟩⟩⟩
  exact bounded_congr (m := m) hexps h.residual
    (.of_beq_zero h.uncorrected (beq_zero_mul h.uncorrected hfinite)) h.bounded

end Monzo

namespace Comma

/-- The exponents of the comma of a prime, whose position is counted from that of five. -/
def vector? (flavor : String) (position prime : Nat) : Option (List ℚ) :=
  (master? flavor (Prime.cents prime)).map fun fifths =>
    twosFor (Prime.cents prime) (-fifths) :: -fifths :: Monzo.wholes (Prime.unit position)

theorem length_of_vector? (h : vector? flavor j p = some es) : es.length = j + 3 := by
  obtain ⟨fifths, -, rfl⟩ := Option.map_eq_some_iff.mp h
  rw [List.length_cons, List.length_cons, Monzo.length_wholes, Prime.length_unit]

theorem compute_eq (h : Prime.table[j + 2]? = some p) :
    compute s p flavor = ofIndex s (j + 2) p flavor := by
  unfold compute
  rw [Prime.index?_eq_some_iff.mpr ⟨p, rfl, h⟩]
  exact if_neg (by omega)

/-- The twos and threes and the prime make up the comma. -/
theorem zipEntries_unit (twos threes : ℚ) (position : Nat) :
    Literal.zipEntries (· + ·) [twos, threes] (Monzo.wholes (Prime.unit (position + 2))) =
      twos :: threes :: Monzo.wholes (Prime.unit position) := by
  rw [Prime.unit_succ, Prime.unit_succ]
  simp [Monzo.wholes, Literal.zipEntries, Literal.zipEntries_nil_left]

theorem ofRatioOver_prime (h : Prime.table[j + 2]? = some p) :
    Monzo.ofRatioOver s (j + 2 + 1) p =
      Monzo.checked s { exps := Monzo.wholes (Prime.unit (j + 2)) } := by
  unfold Monzo.ofRatioOver
  rw [Monzo.factor_eq_ok_iff.mpr ⟨Prime.lt_tableSize h, rfl⟩, Prime.split_prime h]
  rfl

/-- A comma that is found is its vector. -/
theorem isVector_of_compute (h : Prime.table[j + 2]? = some p)
    (hm : compute s p flavor = .ok m) :
    ∃ c, vector? flavor j p = some c ∧ m.IsVector s c := by
  rw [compute_eq h, ofIndex] at hm
  unfold vector?
  cases hfifths : master? flavor (Prime.cents p) with
  | none => simp [hfifths] at hm
  | some fifths =>
    simp only [hfifths] at hm
    obtain ⟨pure, hpure, hm⟩ := bind_eq_ok.mp hm
    obtain ⟨prime, hprime, hm⟩ := bind_eq_ok.mp hm
    rw [ofRatioOver_prime h] at hprime
    have hpure' := Monzo.IsVector.of_checked hpure rfl rfl rfl zero_beq_zero
    have hprime' := Monzo.IsVector.of_checked hprime rfl rfl rfl zero_beq_zero
    have hvector := hpure'.mul hprime' hm
    rw [zipEntries_unit] at hvector
    exact ⟨_, rfl, hvector⟩

/-- A comma whose vector is within the bounds is found. -/
theorem exists_compute (h : Prime.table[j + 2]? = some p) {c : List ℚ}
    (hc : vector? flavor j p = some c) (hm : m.IsVector s c) :
    ∃ n, compute s p flavor = .ok n := by
  obtain ⟨fifths, hfifths, rfl⟩ := Option.map_eq_some_iff.mp hc
  have hlt := Prime.lt_tableSize h
  have hpure := @Monzo.IsVector.padded_of_append s m
    [twosFor (Prime.cents p) (-fifths), -fifths] _ hm 0
  rw [padded_of_le (Nat.zero_le _)] at hpure
  -- the exponents of the prime are no larger than those of the comma
  have hprime : Monzo.IsVector s { exps := Monzo.wholes (Prime.unit (j + 2)) }
      (Monzo.wholes (Prime.unit (j + 2))) := by
    obtain ⟨hexps, hrest⟩ := Monzo.boundsFault?_eq_none_iff.mp hm.bounded
    rw [hm.exps] at hexps
    refine ⟨rfl, rfl, rfl, zero_beq_zero, Monzo.bounded_of_uncorrected ?_ ?_ zero_beq_zero⟩
    · refine Monzo.exponentFault?_of_le (Monzo.centsBound_nonneg s)
        (fun pm hpm => Prime.isFull_of_mem_measures hpm) ?_ hexps
      rw [Prime.unit_succ, Prime.unit_succ]
      refine .cons ?_ (.cons ?_ (List.forall₂_same.mpr fun e _ => le_rfl))
      · simp
      · simp
    · exact hm.residual ▸ hrest.bits_le
  have hproduct := hm
  rw [← zipEntries_unit] at hproduct
  obtain ⟨n, hn⟩ := hpure.exists_mul hprime (by simp [Prime.tableSize])
    (by rw [Monzo.length_wholes, Prime.length_unit]; omega) hproduct
  refine ⟨n, ?_⟩
  rw [compute_eq h, ofIndex]
  simp only [hfifths]
  refine bind_eq_ok.mpr ⟨_, hpure.checked_eq.1, bind_eq_ok.mpr ⟨_, ?_, hn⟩⟩
  rw [ofRatioOver_prime h]
  exact hprime.checked_eq.1

end Comma

/-! ## Looking commas up -/

/-- Every comma filed has been found at some time, within the bounds then in force. -/
structure CommaMemo.Sound (memo : CommaMemo) : Prop where
  found : ∀ key m, memo.lookup key = some m →
    ∃ s, Comma.compute s key.prime (key.flavor.getD "") = .ok m

namespace CommaMemo.Sound

variable {memo memo' : CommaMemo} {key : CommaKey}

theorem nil : Sound [] := ⟨fun _ _ h => by cases h⟩

theorem cons (h : Sound memo) (hm : Comma.compute s key.prime (key.flavor.getD "") = .ok m) :
    Sound ((key, m) :: memo) := by
  refine ⟨fun key' n hn => ?_⟩
  rw [List.lookup_cons] at hn
  cases hkey : key' == key with
  | true =>
    rw [hkey] at hn
    cases hn
    exact ⟨s, eq_of_beq hkey ▸ hm⟩
  | false =>
    rw [hkey] at hn
    exact h.found key' n hn

/-- A comma looked up has been found at some time, and the commas filed stay sound. -/
theorem of_comma (h : Sound memo) (hm : (comma s key).Returns memo m memo') :
    (∃ t, Comma.compute t key.prime (key.flavor.getD "") = .ok m) ∧ Sound memo' := by
  unfold comma at hm
  obtain ⟨found, rest, hget, hm⟩ := Memoized.returns_bind.mp hm
  cases hget
  cases hlookup : memo.lookup key with
  | some n =>
    simp only [hlookup] at hm
    obtain ⟨rfl, rfl⟩ := Memoized.returns_pure.mp hm
    exact ⟨h.found key n hlookup, h⟩
  | none =>
    simp only [hlookup] at hm
    obtain ⟨n, rest, hfind, hm⟩ := Memoized.returns_bind.mp hm
    obtain ⟨hn, rfl⟩ := Memoized.returns_ofExcept.mp hfind
    obtain ⟨_, rest, hmodify, hm⟩ := Memoized.returns_bind.mp hm
    cases hmodify
    obtain ⟨rfl, rfl⟩ := Memoized.returns_pure.mp hm
    exact ⟨⟨s, hn⟩, h.cons hn⟩

end CommaMemo.Sound

/-- A comma that can be found anew can be looked up. -/
theorem exists_comma {memo : CommaMemo} {key : CommaKey}
    (hm : Comma.compute s key.prime (key.flavor.getD "") = .ok m) :
    ∃ n memo', (comma s key).Returns memo n memo' := by
  cases hlookup : memo.lookup key with
  | some n =>
    refine ⟨n, memo, Memoized.returns_bind.mpr ⟨memo, memo, rfl, ?_⟩⟩
    simp only [hlookup]
    exact Memoized.returns_pure.mpr ⟨rfl, rfl⟩
  | none =>
    refine ⟨m, (key, m) :: memo, Memoized.returns_bind.mpr ⟨memo, memo, rfl, ?_⟩⟩
    simp only [hlookup]
    exact Memoized.returns_bind.mpr ⟨m, memo, Memoized.returns_ofExcept.mpr ⟨hm, rfl⟩,
      Memoized.returns_bind.mpr ⟨⟨⟩, _, rfl, Memoized.returns_pure.mpr ⟨rfl, rfl⟩⟩⟩

end Intonation
