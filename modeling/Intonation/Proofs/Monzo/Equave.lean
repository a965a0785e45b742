import Intonation.Proofs.Monzo.Resizing
import Intonation.Proofs.Monzo.Temperament
import Intonation.Proofs.Value.Bounded

/-!
# The canonical equave

Splitting a rational power of a ratio into a fraction and an equave is canonical: the equave exceeds
one and is no power of another ratio, which leaves one choice of both. The fraction of the equave,
over as many primes, is the value again.

## Main definitions

* `Monzo.IsTemperament`: a fraction and an equave in canonical form

## Main statements

* `padicValRat_powerProduct`: the exponents of a product of prime powers
* `getD_temperament`, `ofTemperament_temperament`: a vector from its fraction and its equave
* `IsVector.isTemperament`: what splitting gives is in canonical form
* `IsTemperament.unique`: there is one canonical form
* `toTemperament_canonical`: both, and the value that the canonical form gives
-/

namespace Intonation

namespace Prime

variable {ns : List Int}

theorem getElem_mem_drop {α : Type} {xs : List α} {i k : Nat} (hle : k ≤ i) (hi : i < xs.length) :
    xs[i] ∈ xs.drop k :=
  List.mem_drop_iff_getElem.mpr ⟨i - k, by omega, by simp only [Nat.add_sub_cancel' hle]⟩

/-- Splitting a product of powers over as many primes gives its exponents. -/
theorem split_powerProduct (ns : List Int) :
    split (table.take ns.length) (powerProduct table ns) = (ns.take tableSize, 1) := by
  refine split_eq_of_eq_mul (distinct_table.take _) ?_ one_ne_zero (Free.one _) ?_
  · rw [List.length_take, List.length_take, length_table, min_comm]
  · rw [one_mul, powerProduct_take _ _ (List.length_take_le' _ _), ← length_table,
      powerProduct_take_length]

/-- The exponent that a prime of the table has in a product of powers. -/
theorem padicValRat_powerProduct (ns : List Int) {k : Nat} (hk : k < tableSize) :
    padicValRat (atPosition k) (powerProduct table ns) = ns.getD k 0 := by
  have hsum := getD_split_add ns.length (powerProduct table ns) k
  rw [split_powerProduct, padicValRat.one, add_zero] at hsum
  rw [← hsum, List.getD_eq_getElem?_getD, List.getElem?_take_of_lt hk, List.getD_eq_getElem?_getD]

/-- A product of powers whose exponents have no common divisor is no power. -/
theorem powerProduct_ne_pow (hzero : ∀ n ∈ ns.drop tableSize, n = 0)
    (hprimitive : ∀ d : Nat, (∀ n ∈ ns, (d : Int) ∣ n) → d = 1) (r : ℚ) {k : Nat} (hk : 2 ≤ k) :
    powerProduct table ns ≠ r ^ k := by
  intro hpow
  have hone : k = 1 := by
    refine hprimitive k fun n hn => ?_
    obtain ⟨i, hi, rfl⟩ := List.mem_iff_getElem.mp hn
    rcases lt_or_ge i tableSize with hlt | hge
    · have hval := padicValRat_powerProduct ns hlt
      rw [hpow, ← zpow_natCast, Monzo.padicValRat_atPosition_zpow,
        List.getD_eq_getElem _ _ hi] at hval
      exact ⟨_, hval.symm⟩
    · rw [hzero _ (getElem_mem_drop hge hi)]
      exact dvd_zero _
  omega

end Prime

namespace Monzo
open Double Intonation.Prime

variable {s t : Settings} {m : Monzo} {es : List ℚ} {f f' e e' : ℚ}

/-! ## The canonical form -/

/-- The exponents of a value are a fraction of those of an equave. Unity is zero steps of unity,
and the equave of any other value exceeds one and is no power of another ratio. -/
structure IsTemperament (m : Monzo) (fraction equave : ℚ) : Prop where
  exponents : ∀ p ∈ table, m.exponentOf p = .ok (fraction * padicValRat p equave)
  beyond : ∀ p : Nat, p.Prime → p ∉ table → fraction * padicValRat p equave = 0
  unity : m.isUnity = true ↔ fraction = 0 ∧ equave = 1
  one_lt : m.isUnity = false → 1 < equave
  primitive : m.isUnity = false → ∀ (r : ℚ) (k : Nat), 2 ≤ k → equave ≠ r ^ k

/-- The exponents of a vector are the fraction of those of its equave. -/
theorem getD_temperament (es : List ℚ) {k : Nat} (hk : k < tableSize) :
    es.getD k 0 = (temperament es).1 * padicValRat (atPosition k) (temperament es).2 := by
  obtain ⟨ns, -, hequave, hexps, -⟩ := temperament_spec es
  have hmap := List.getD_map (n := k) ns 0 fun n : Int => (n : ℚ) * (temperament es).1
  rw [Int.cast_zero, zero_mul, ← hexps] at hmap
  rw [hmap, hequave, padicValRat_powerProduct ns hk, mul_comm]

/-- A vector of tracked primes whose equave is unity has no exponents. -/
theorem isFlat_of_temperament (hle : es.length ≤ tableSize) (h : (temperament es).2 = 1) :
    isFlat es = true := by
  refine List.all_eq_true.mpr fun e he => ?_
  obtain ⟨k, hk, rfl⟩ := List.mem_iff_getElem.mp he
  have hzero := getD_temperament es (hk.trans_le hle)
  rw [h, padicValRat.one, Int.cast_zero, mul_zero, List.getD_eq_getElem _ _ hk] at hzero
  exact decide_eq_true hzero

/-- Over as many primes as a vector has, the fraction of its equave is the vector. -/
theorem ofTemperament_temperament {base : Monzo}
    (hbase : ofRatioOver t es.length (temperament es).2 = .ok base) :
    ofTemperament t es.length (temperament es).1 (temperament es).2 = checked t { exps := es } := by
  obtain ⟨ns, hlen, hequave, hexps, -⟩ := temperament_spec es
  obtain ⟨hle, hchecked⟩ := ofRatioOver_eq_ok_iff.mp hbase
  obtain ⟨-, hparts⟩ := checked_eq_ok_iff.mp hchecked
  rw [← hlen] at hle
  rw [hequave, ← hlen, split_powerProduct, List.take_of_length_le hle] at hparts
  have hres : base.residual = 1 := by rw [hparts]
  have hmap : base.exps.map (· * (temperament es).1) = es := by
    conv_rhs => rw [hexps]
    rw [hparts, wholes, List.map_map]
    rfl
  have hpow : Ratio.pow? base.residual (temperament es).1 = some 1 := by rw [hres, Ratio.pow?_one]
  rw [ofTemperament_of_pow hbase hpow, hmap]

/-- A vector whose equave is unity is no part of any equave. -/
theorem ofTemperament_of_one {base : Monzo} {equave : ℚ} (hone : (temperament es).2 = 1)
    (hbase : ofRatioOver t es.length equave = .ok base) :
    ofTemperament t es.length (temperament es).1 equave = checked t { exps := es } := by
  obtain ⟨hle, hlen⟩ := components_ofRatioOver hbase
  have hflat := isFlat_of_temperament hle hone
  have hpow : Ratio.pow? base.residual 0 = some 1 := by
    rw [← Int.cast_zero, Ratio.pow?_intCast, if_neg (fun h => lt_irrefl _ h.2), zpow_zero]
  have hzeros : base.exps.map (· * (0 : ℚ)) = es := by
    rw [isFlat_iff.mp hflat]
    simp only [mul_zero, List.map_const', show base.exps.length = es.length from hlen]
  rw [temperament_of_flat hflat, ofTemperament_of_pow hbase hpow, hzeros]

namespace IsVector

/-- The exponents of a vector are its entries. -/
theorem exponentOf (h : IsVector s m es) {k p : Nat} (hp : table[k]? = some p) :
    m.exponentOf p = .ok (es.getD k 0) := by
  have hm : m.Factored := ⟨h.residual ▸ Free.one _, vanish_of_bounded h.bounded⟩
  rw [hm.exponentOf hp, h.parts_eq, coordinate_one]

theorem isUnity_eq (h : IsVector s m es) : m.isUnity = isFlat es := by
  rw [isUnity, h.isEqualTemperament, Bool.true_and, h.exps]

theorem vanish (h : IsVector s m es) : ∀ e ∈ es.drop tableSize, e = 0 :=
  h.exps ▸ vanish_of_bounded h.bounded

/-- A vector that is not unity has a prime. -/
theorem exists_exponent_ne_zero (h : IsVector s m es) (hunity : m.isUnity = false) :
    ∃ p ∈ table, ∃ x, x ≠ 0 ∧ m.exponentOf p = .ok x := by
  rw [h.isUnity_eq, isFlat, List.all_eq_false] at hunity
  obtain ⟨e, he, hne⟩ := hunity
  rw [decide_eq_true_eq] at hne
  obtain ⟨i, hi, rfl⟩ := List.mem_iff_getElem.mp he
  have hlt : i < tableSize := by
    by_contra hge
    exact hne (h.vanish _ (getElem_mem_drop (not_lt.mp hge) hi))
  have hi' := lt_length_table hlt
  have hget : table[i]? = some table[i] := List.getElem?_eq_getElem hi'
  exact ⟨_, List.getElem_mem _, _, List.getD_eq_getElem _ _ hi ▸ hne, h.exponentOf hget⟩

/-- What splitting a vector gives is in canonical form. -/
theorem isTemperament (h : IsVector s m es) :
    IsTemperament m (temperament es).1 (temperament es).2 := by
  obtain ⟨ns, -, hequave, -⟩ := temperament_spec es
  have hexponents : ∀ p ∈ table,
      m.exponentOf p = .ok ((temperament es).1 * padicValRat p (temperament es).2) := by
    intro p hp
    obtain ⟨k, hk, rfl⟩ := List.mem_iff_getElem.mp hp
    have hget : table[k]? = some table[k] := List.getElem?_eq_getElem hk
    rw [h.exponentOf hget, getD_temperament es (lt_tableSize hget), atPosition_of_getElem? hget]
  have hbeyond : ∀ p : Nat, p.Prime → p ∉ table →
      (temperament es).1 * padicValRat p (temperament es).2 = 0 := by
    intro p hp hmem
    rw [hequave, padicValRat_powerProduct_of_notMem distinct_table hp hmem, Int.cast_zero, mul_zero]
  by_cases hflat : isFlat es = true
  · rw [← h.isUnity_eq] at hflat
    refine ⟨hexponents, hbeyond, ?_, ?_, ?_⟩
    · rw [h.isUnity_eq] at hflat ⊢
      simp [temperament_of_flat hflat, hflat]
    · simp [hflat]
    · simp [hflat]
  · rw [Bool.not_eq_true] at hflat
    obtain ⟨ks, -, hproduct, hmultiples, hfraction, hprimitive⟩ := exists_primitive hflat
    have hzero : ∀ k ∈ ks.drop tableSize, k = 0 := by
      intro k hk
      have hdrop := congrArg (List.drop tableSize) hmultiples
      rw [← List.map_drop] at hdrop
      have hmul := h.vanish _ (hdrop ▸ List.mem_map_of_mem hk)
      exact_mod_cast (mul_eq_zero.mp hmul).resolve_right hfraction
    have hne : ∀ (r : ℚ) (k : Nat), 2 ≤ k → (temperament es).2 ≠ r ^ k := by
      intro r k hk
      rw [hproduct]
      exact powerProduct_ne_pow hzero hprimitive r hk
    refine ⟨hexponents, hbeyond, ?_, fun _ => ?_, fun _ => hne⟩
    · rw [h.isUnity_eq, hflat]
      simp [hfraction]
    · exact (one_le_temperament es).lt_of_ne' fun hone => hne 1 2 le_rfl (by rw [hone, one_pow])

end IsVector

/-- Two ratios above one that are no powers, and whose valuations are in one proportion, are
equal. -/
theorem eq_of_proportional {r : ℚ} (he : 1 < e) (he' : 1 < e')
    (hval : ∀ p : Nat, p.Prime → (padicValRat p e : ℚ) = r * padicValRat p e')
    (hprimitive : ∀ (t : ℚ) (k : Nat), 2 ≤ k → e ≠ t ^ k)
    (hprimitive' : ∀ (t : ℚ) (k : Nat), 2 ≤ k → e' ≠ t ^ k) : r = 1 ∧ e = e' := by
  have hpos : 0 < e := one_pos.trans he
  have hpos' : 0 < e' := one_pos.trans he'
  -- powers of the two agree, in the terms of the proportion
  have hpow : e ^ r.den = e' ^ r.num := by
    rw [Ratio.eq_iff_padicValRat (pow_pos hpos _) (zpow_pos hpos' _)]
    intro p hp
    have := Fact.mk hp
    rw [← zpow_natCast, padicValRat.zpow, padicValRat.zpow, ← @Int.cast_inj ℚ]
    push_cast
    rw [hval p hp, ← mul_assoc, mul_comm (r.den : ℚ), Rat.mul_den_eq_num]
  have hden : r.den = 1 := by
    obtain ⟨t, -, ht⟩ := Ratio.exists_pow_eq hpos' hpos hpow
    by_contra hne
    have hden := r.den_pos
    exact hprimitive' t _ (by omega) ht.symm
  rw [hden, pow_one] at hpow
  have hnum : r.num = 1 := by
    have hlt : 0 < r.num := by
      by_contra hle
      have hle' := zpow_le_one_of_nonpos₀ he'.le (not_lt.mp hle)
      exact absurd he (not_lt.mpr (hpow ▸ hle'))
    obtain ⟨k, hk⟩ := Int.eq_ofNat_of_zero_le hlt.le
    rw [hk, zpow_natCast] at hpow
    by_contra hne
    exact hprimitive e' k (by omega) hpow
  rw [hnum, zpow_one] at hpow
  refine ⟨?_, hpow⟩
  rw [← Rat.num_div_den r, hnum, hden]
  norm_num

/-- There is one canonical form. -/
theorem IsTemperament.unique (hm : IsVector s m es) (h : IsTemperament m f e)
    (h' : IsTemperament m f' e') : f = f' ∧ e = e' := by
  cases hunity : m.isUnity with
  | true =>
    obtain ⟨rfl, rfl⟩ := h.unity.mp hunity
    obtain ⟨rfl, rfl⟩ := h'.unity.mp hunity
    exact ⟨rfl, rfl⟩
  | false =>
    obtain ⟨p, hp, x, hx, hexp⟩ := hm.exists_exponent_ne_zero hunity
    have hf : f ≠ 0 := by
      rintro rfl
      rw [h.exponents p hp, zero_mul] at hexp
      exact hx (Except.ok.inj hexp).symm
    have hvals : ∀ p : Nat, p.Prime → f * padicValRat p e = f' * padicValRat p e' := by
      intro p hp
      by_cases hmem : p ∈ table
      · exact Except.ok.inj ((h.exponents p hmem).symm.trans (h'.exponents p hmem))
      · rw [h.beyond p hp hmem, h'.beyond p hp hmem]
    obtain ⟨hquotient, heq⟩ := eq_of_proportional (h.one_lt hunity) (h'.one_lt hunity)
      (fun p hp => by rw [div_mul_eq_mul_div, eq_div_iff hf, mul_comm, hvals p hp])
      (h.primitive hunity) (h'.primitive hunity)
    exact ⟨((div_eq_one_iff_eq hf).mp hquotient).symm, heq⟩

/-! ## The fraction of the equave -/

/-- Over as many primes as the value has, the fraction of its equave is its vector. -/
theorem IsVector.ofTemperament_eq {base : Monzo} (h : IsVector s m es)
    (hbase : ofRatioOver t m.components (temperament es).2 = .ok base) :
    ofTemperament t m.components (temperament es).1 (temperament es).2 =
      checked t { exps := es } := by
  rw [h.components] at hbase ⊢
  exact ofTemperament_temperament hbase

/-- A rational power of a ratio over the tracked primes has one canonical form, which splitting
gives. The fraction of the equave over the same number of primes is strictly equal to the value
whenever it is there at all; and it is there when the equave is within the bounds, unless the value
is not. -/
theorem toTemperament_canonical (hm : m.isEqualTemperament) (hbounded : m.IsBounded) :
    ∃ f e, m.toTemperament = .ok (f, e) ∧ IsTemperament m f e ∧
      (∀ f' e', IsTemperament m f' e' → f' = f ∧ e' = e) ∧
      ∀ t, (∀ w, ofTemperament t m.components f e = .ok w → ∀ u, w.strictEquals u m = .ok true) ∧
        ((∃ base, ofRatioOver t m.components e = .ok base) → boundsFault? t m = none →
          ∃ w, ofTemperament t m.components f e = .ok w) := by
  obtain ⟨s, hs⟩ := hbounded
  have hvector := IsVector.of_isEqualTemperament hm hs
  refine ⟨_, _, by rw [toTemperament, if_pos hm], hvector.isTemperament,
    fun f' e' h => IsTemperament.unique hvector h hvector.isTemperament, fun t => ⟨?_, ?_⟩⟩
  · intro w hw u
    obtain ⟨-, -, base, hbase, -⟩ := ofTemperament_ok hw
    rw [hvector.ofTemperament_eq hbase] at hw
    have hwide : IsVector t w m.exps := .of_checked hw rfl rfl rfl zero_beq_zero
    exact strictEquals_of_parts (hwide.parts_eq.trans hvector.parts_eq.symm)
      (hwide.time.trans hvector.time.symm) hwide.uncorrected hvector.uncorrected
  · rintro ⟨base, hbase⟩ ht
    rw [hvector.ofTemperament_eq hbase]
    exact ⟨_, (IsVector.of_isEqualTemperament hm ht).checked_eq.1⟩

/-- The inverse of the cube of the root of four thirds, over three primes. -/
theorem toTemperament_canonical_fourth :
    let m : Monzo := { exps := [-3, 3 / 2, 0] }
    m.isEqualTemperament ∧ m.IsBounded ∧ m.toTemperament = .ok (-3 / 2, 4 / 3) ∧
      IsTemperament m (-3 / 2) (4 / 3) ∧
      ∃ w, ofTemperament {} 3 (-3 / 2) (4 / 3) = .ok w ∧ w.strictEquals {} m = .ok true := by
  intro m
  have hm : m.isEqualTemperament := by decide +kernel
  have hbounded : boundsFault? {} m = none := by decide +kernel
  have hsplit : m.toTemperament = .ok (-3 / 2, 4 / 3) := by decide +kernel
  obtain ⟨f, e, hfe, hcanonical, -, hvalue⟩ := toTemperament_canonical hm ⟨{}, hbounded⟩
  obtain ⟨rfl, rfl⟩ := Prod.mk.injEq .. ▸ Except.ok.inj (hfe.symm.trans hsplit)
  have hbase : (ofRatioOver {} 3 (4 / 3)).map (fun _ => ()) = .ok () := by decide +kernel
  obtain ⟨base, hbase, -⟩ := map_eq_ok.mp hbase
  obtain ⟨w, hw⟩ := (hvalue {}).2 ⟨base, hbase⟩ hbounded
  exact ⟨hm, ⟨{}, hbounded⟩, hsplit, hcanonical, w, hw, (hvalue {}).1 w hw {}⟩

end Monzo

end Intonation
