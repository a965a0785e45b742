import Intonation.FJS.Inflection
import Intonation.Proofs.FJS.Comma

/-!
# Inflections as sums of vectors

Inflecting by a row of primes adds the vectors of their commas one after the other. The run
returns whenever every sum on the way is within the bounds, whatever commas have been filed
before, so that a run that has returned once returns again.

## Main definitions

* `Inflects s op row es fs`: a row of inflections leads from one vector to another
* `Commas s raised lowered es`: the vector of the commas of two rows

## Main statements

* `Inflects.of_returns`, `Inflects.exists_returns`: the runs of a row of inflections
* `Commas.of_inflection`, `Commas.exists_inflection`: the runs that take the commas of two rows
* `Inflects.unique`, `Commas.unique`: the vectors are determined
-/

namespace Intonation
open Double Literal

variable {s : Settings} {apply : Value → Value → Except Fault Value} {op : ℚ → ℚ → ℚ}
  {row raised lowered : List Inflection} {a b m : Monzo} {es fs gs : List ℚ} {v : Value}
  {memo memo' : CommaMemo} {flavor : String} {j p : Nat}

namespace Monzo

theorem isVector_exps (h : boundsFault? s { exps := es } = none) :
    IsVector s { exps := es } es := ⟨rfl, rfl, rfl, zero_beq_zero, h⟩

theorem IsVector.bounded_exps (h : IsVector s m es) : boundsFault? s { exps := es } = none :=
  h.checked_eq.2.bounded

/-- A vector built within other bounds is a vector within these when its exponents are. -/
theorem IsVector.within {t : Settings} (h : IsVector t m es)
    (hb : boundsFault? s { exps := es } = none) : IsVector s m es :=
  ⟨h.time, h.exps, h.residual, h.uncorrected, bounded_congr (m := { exps := es }) h.exps.symm
    h.residual.symm (.of_beq_zero zero_beq_zero h.uncorrected) hb⟩

end Monzo

open Monzo

/-- An operation on values that combines the entries of vectors. -/
structure CombinesVectors (s : Settings) (apply : Value → Value → Except Fault Value)
    (op : ℚ → ℚ → ℚ) : Prop where
  vector : ∀ {a b : Monzo} {es fs : List ℚ} {v : Value}, a.IsVector s es → b.IsVector s fs →
    apply (.exact a) (.exact b) = .ok v →
    ∃ m : Monzo, v = .exact m ∧ m.IsVector s (zipEntries op es fs)
  exists_value : ∀ {a b : Monzo} {es fs : List ℚ}, a.IsVector s es → b.IsVector s fs →
    es.length ≤ Prime.tableSize → fs.length ≤ Prime.tableSize →
    boundsFault? s { exps := zipEntries op es fs } = none →
    ∃ v, apply (.exact a) (.exact b) = .ok v

theorem combinesVectors_mul (s : Settings) : CombinesVectors s (Value.mul s) (· + ·) where
  vector ha hb h := by
    obtain ⟨m, hm, rfl⟩ := map_eq_ok.mp h
    exact ⟨m, rfl, ha.mul hb hm⟩
  exists_value ha hb hes hfs hbounded := by
    obtain ⟨m, hm⟩ := ha.exists_mul hb hes hfs (isVector_exps hbounded)
    exact ⟨_, map_eq_ok.mpr ⟨m, hm, rfl⟩⟩

theorem combinesVectors_div (s : Settings) : CombinesVectors s (Value.div s) (· - ·) where
  vector ha hb h := ha.div hb h
  exists_value ha hb hes hfs hbounded := ha.exists_div hb hes hfs (isVector_exps hbounded)

/-! ## The comma of one prime -/

theorem applyCommas_zeros {zeros rest : List (Nat × Int)} (h : ∀ pe ∈ zeros, pe.2 = 0) :
    applyCommas s flavor apply (zeros ++ rest) v = applyCommas s flavor apply rest v := by
  induction zeros with
  | nil => rfl
  | cons pe zeros ih =>
    rw [List.cons_append, applyCommas, if_pos (h pe List.mem_cons_self)]
    exact ih fun pe' hpe' => h pe' (List.mem_cons_of_mem _ hpe')

theorem zip_unit {primes : List Nat} {position : Nat} (h : primes[position]? = some p) :
    primes.zip (Prime.unit position) =
      (primes.take position).map (fun q => (q, (0 : Int))) ++ [(p, 1)] := by
  induction primes generalizing position with
  | nil => simp at h
  | cons q primes ih =>
    cases position with
    | zero =>
      obtain rfl : q = p := by simpa using h
      simp [Prime.unit]
    | succ position =>
      rw [List.getElem?_cons_succ] at h
      rw [Prime.unit_succ, List.zip_cons_cons, ih h, List.take_succ_cons, List.map_cons,
        List.cons_append]

/-- Inflecting by a prime looks its comma up and applies it once. -/
theorem returns_applyCommas_prime {w : Value} (h : Prime.table[j + 2]? = some p) :
    (applyCommas s flavor apply (Prime.table.zip (Prime.unit (j + 2))) v).Returns memo w memo' ↔
      ∃ c power, (comma s { prime := p, flavor := some flavor }).Returns memo c memo' ∧
        c.powRatio s (1 : Int) = .ok power ∧ apply v power = .ok w := by
  rw [zip_unit h, applyCommas_zeros, applyCommas, if_neg one_ne_zero]
  · simp only [Memoized.returns_bind, Memoized.returns_ofExcept, applyCommas,
      Memoized.returns_pure]
    constructor
    · rintro ⟨c, rest, hc, power, _, ⟨hpower, rfl⟩, _, _, ⟨happly, rfl⟩, rfl, rfl⟩
      exact ⟨c, power, hc, hpower, happly⟩
    · rintro ⟨c, power, hc, hpower, happly⟩
      exact ⟨c, memo', hc, power, memo', ⟨hpower, rfl⟩, w, memo', ⟨happly, rfl⟩, rfl, rfl⟩
  · intro pe hpe
    obtain ⟨q, -, rfl⟩ := List.mem_map.mp hpe
    rfl

theorem map_mul_one (es : List ℚ) : es.map (· * ((1 : Int) : ℚ)) = es := by simp

/-! ## Rows of inflections -/

/-- A row of inflections by primes leads from one vector to another, all of them within the
bounds. -/
inductive Inflects (s : Settings) (op : ℚ → ℚ → ℚ) :
    List Inflection → List ℚ → List ℚ → Prop
  /-- No inflection. -/
  | nil {es : List ℚ} : Inflects s op [] es es
  /-- The comma of the first prime, and the rest of the row. -/
  | cons {j p : Nat} {flavor : String} {row : List Inflection} {c es fs : List ℚ}
      (position : Prime.table[j + 2]? = some p) (vector : Comma.vector? flavor j p = some c)
      (comma_bounded : boundsFault? s { exps := c } = none)
      (bounded : boundsFault? s { exps := zipEntries op es c } = none)
      (rest : Inflects s op row (zipEntries op es c) fs) :
      Inflects s op (⟨p, flavor⟩ :: row) es fs

/-- An inflection by a prime of the table that has a comma. -/
def Inflection.IsPrime (i : Inflection) : Prop :=
  ∃ j p : Nat, Prime.table[j + 2]? = some p ∧ i.number = p

namespace Inflects

theorem unique (h : Inflects s op row es fs) (h' : Inflects s op row es gs) : fs = gs := by
  induction h with
  | nil =>
    cases h'
    rfl
  | cons position vector _ _ _ ih =>
    generalize hrow : (_ :: _ : List Inflection) = row at h'
    cases h' with
    | nil => cases hrow
    | cons position' vector' _ _ rest' =>
      cases hrow
      obtain rfl := Nat.add_right_cancel (Prime.position_unique position position')
      rw [vector, Option.some.injEq] at vector'
      subst vector'
      exact ih rest'

/-- What a run that inflects by a row of primes returns. -/
theorem of_returns (hs : s.Valid) (hop : CombinesVectors s apply op) (hmemo : memo.Sound)
    (hrow : ∀ i ∈ row, i.IsPrime) (ha : a.IsVector s es)
    (h : (applyInflections s apply row (.exact a)).Returns memo v memo') :
    ∃ (m : Monzo) (fs : List ℚ), v = .exact m ∧ m.IsVector s fs ∧ Inflects s op row es fs ∧
      memo'.Sound := by
  induction row generalizing a es memo with
  | nil =>
    obtain ⟨rfl, rfl⟩ := Memoized.returns_pure.mp h
    exact ⟨a, es, rfl, ha, .nil, hmemo⟩
  | cons i row ih =>
    obtain ⟨number, flavor⟩ := i
    obtain ⟨j, p, hposition, hnumber⟩ := hrow _ List.mem_cons_self
    obtain rfl : number = p := hnumber
    obtain ⟨exponents, rest, hfactor, h⟩ := Memoized.returns_bind.mp h
    obtain ⟨hexponents, rfl⟩ := Memoized.returns_ofExcept.mp hfactor
    rw [factorCompletely_prime hposition, Except.ok.injEq] at hexponents
    subst hexponents
    obtain ⟨w, rest, hcommas, h⟩ := Memoized.returns_bind.mp h
    obtain ⟨c, power, hcomma, hpower, happly⟩ := (returns_applyCommas_prime hposition).mp hcommas
    -- the comma may have been found within other bounds, its power is within these
    obtain ⟨⟨t, ht⟩, hmemo'⟩ := hmemo.of_comma hcomma
    obtain ⟨cs, hvector, hc⟩ := Comma.isVector_of_compute hposition ht
    obtain ⟨n, rfl, hn⟩ := hc.powRatio (by rw [Rat.den_intCast]; exact hs.pow_gt_one) hpower
    rw [map_mul_one] at hn
    obtain ⟨b, rfl, hb⟩ := hop.vector ha hn happly
    obtain ⟨m, fs, hv, hm, hrest, hmemo''⟩ :=
      ih hmemo' (fun i hi => hrow i (List.mem_cons_of_mem _ hi)) hb h
    exact ⟨m, fs, hv, hm, .cons hposition hvector hn.bounded_exps hb.bounded_exps hrest, hmemo''⟩

/-- Inflecting by a row of primes returns when it leads to a vector. -/
theorem exists_returns (hs : s.Valid) (hop : CombinesVectors s apply op) (hmemo : memo.Sound)
    (hlen : es.length ≤ Prime.tableSize) (ha : a.IsVector s es) (h : Inflects s op row es fs) :
    ∃ v memo', (applyInflections s apply row (.exact a)).Returns memo v memo' := by
  induction h generalizing a memo with
  | nil => exact ⟨_, _, Memoized.returns_pure.mpr ⟨rfl, rfl⟩⟩
  | @cons j p flavor row c es fs position vector comma_bounded bounded rest ih =>
    have hc := isVector_exps comma_bounded
    have hclen : c.length ≤ Prime.tableSize := by
      have := Prime.lt_tableSize position
      rw [Comma.length_of_vector? vector]
      omega
    obtain ⟨c₀, hcompute⟩ := Comma.exists_compute position vector hc
    obtain ⟨c₁, memo₁, hcomma⟩ := @exists_comma s c₀ memo ⟨p, some flavor⟩ hcompute
    obtain ⟨⟨t, ht⟩, hmemo₁⟩ := hmemo.of_comma hcomma
    obtain ⟨c', hvector', hc₁⟩ := Comma.isVector_of_compute position ht
    obtain rfl : c = c' := Option.some.inj (vector.symm.trans hvector')
    obtain ⟨power, hpower⟩ := (hc₁.within comma_bounded).exists_powRatio_one hs.pow_gt_one
    obtain ⟨n, rfl, hn⟩ := hc₁.powRatio (by rw [Rat.den_intCast]; exact hs.pow_gt_one) hpower
    rw [map_mul_one] at hn
    obtain ⟨w, hw⟩ := hop.exists_value ha hn hlen hclen bounded
    obtain ⟨b, rfl, hb⟩ := hop.vector ha hn hw
    have hblen : (zipEntries op es c).length ≤ Prime.tableSize := by
      rw [length_zipEntries]
      omega
    obtain ⟨v, memo', hrest⟩ := ih hmemo₁ hblen hb
    exact ⟨v, memo', Memoized.returns_bind.mpr ⟨Prime.unit (j + 2), memo,
      Memoized.returns_ofExcept.mpr ⟨factorCompletely_prime position, rfl⟩,
      Memoized.returns_bind.mpr ⟨.exact b, memo₁,
        (returns_applyCommas_prime position).mpr ⟨c₁, .exact n, hcomma, hpower, hw⟩, hrest⟩⟩⟩

theorem length_le (h : Inflects s op row es fs) : es.length ≤ fs.length := by
  induction h with
  | nil => exact le_rfl
  | cons _ _ _ _ _ ih =>
    rw [length_zipEntries] at ih
    omega

theorem length_le_tableSize (h : Inflects s op row es fs) (hes : es.length ≤ Prime.tableSize) :
    fs.length ≤ Prime.tableSize := by
  induction h with
  | nil => exact hes
  | cons position vector _ _ _ ih =>
    have hlt := Prime.lt_tableSize position
    have hlen := Comma.length_of_vector? vector
    apply ih
    rw [length_zipEntries]
    omega

/-- The vector reaches the positions of all primes of the row. -/
theorem lt_length (h : Inflects s op row es fs) (hp : Prime.table[j + 2]? = some p)
    {i : Inflection} (hi : i ∈ row) (hnumber : i.number = p) : j + 2 < fs.length := by
  induction h with
  | nil => cases hi
  | cons position vector _ _ rest ih =>
    rcases List.mem_cons.mp hi with rfl | hi
    · have hle := rest.length_le
      rw [length_zipEntries, Comma.length_of_vector? vector] at hle
      rw [← Nat.cast_injective (R := Int) hnumber] at hp
      have := Prime.position_unique position hp
      omega
    · exact ih hi

end Inflects

/-! ## Entries -/

namespace Literal

theorem getD_zipEntries (h0 : op 0 0 = 0) (es fs : List ℚ) (k : Nat) :
    (zipEntries op es fs).getD k 0 = op (es.getD k 0) (fs.getD k 0) := by
  induction es generalizing fs k with
  | nil =>
    rw [zipEntries_nil_left, List.getD_nil, List.getD_eq_getElem?_getD,
      List.getD_eq_getElem?_getD, List.getElem?_map]
    cases fs[k]? <;> simp [h0]
  | cons e es ih =>
    cases fs with
    | nil =>
      rw [zipEntries_nil_right, List.getD_nil, List.getD_eq_getElem?_getD,
        List.getD_eq_getElem?_getD, List.getElem?_map]
      cases (e :: es)[k]? <;> simp [h0]
    | cons f fs =>
      rw [zipEntries]
      cases k with
      | zero => rfl
      | succ k => exact ih fs k

end Literal

theorem Monzo.getD_wholes_unit (j k : Nat) :
    (wholes (Prime.unit j)).getD k 0 = if k = j then 1 else 0 := by
  induction j generalizing k with
  | zero => cases k <;> simp [Prime.unit, wholes]
  | succ j ih =>
    rw [Prime.unit_succ]
    cases k with
    | zero => simp [wholes]
    | succ k => simpa [wholes] using ih k

theorem Comma.getD_of_vector? {c : List ℚ} (h : Comma.vector? flavor j p = some c) (k : Nat) :
    c.getD (k + 2) 0 = if k = j then 1 else 0 := by
  obtain ⟨fifths, -, rfl⟩ := Option.map_eq_some_iff.mp h
  rw [List.getD_cons_succ, List.getD_cons_succ, Monzo.getD_wholes_unit]

/-- How often a row inflects by a prime. -/
def countOf (p : Nat) (row : List Inflection) : Nat := row.countP fun i => i.number = (p : Int)

theorem countOf_cons (p : Nat) (i : Inflection) (row : List Inflection) :
    countOf p (i :: row) = countOf p row + if i.number = (p : Int) then 1 else 0 := by
  rw [countOf, List.countP_cons, countOf]
  simp

/-- A row of inflections adds to the entry of a prime as often as it inflects by it. -/
theorem Inflects.getD_eq {d : ℚ} (h0 : ∀ x, op x 0 = x) (h1 : ∀ x, op x 1 = x + d)
    (h : Inflects s op row es fs) {k q : Nat} (hq : Prime.table[k + 2]? = some q) :
    fs.getD (k + 2) 0 = es.getD (k + 2) 0 + d * countOf q row := by
  induction h with
  | nil => simp [countOf]
  | @cons j p flavor row c es fs position vector _ _ rest ih =>
    rw [ih, getD_zipEntries (h0 0), Comma.getD_of_vector? vector, countOf_cons]
    by_cases hk : k = j
    · subst hk
      obtain rfl : p = q := Option.some.inj (position.symm.trans hq)
      rw [if_pos rfl, if_pos rfl, h1]
      push_cast
      ring
    · have hne : ¬ ((p : Int) = q) := by
        intro heq
        rw [Nat.cast_injective heq] at position
        have := Prime.position_unique hq position
        omega
      rw [if_neg hk, if_neg hne, h0, add_zero (countOf q row)]

/-! ## The commas of two rows -/

/-- The vector of the commas of one row over those of another. -/
def Commas (s : Settings) (raised lowered : List Inflection) (es : List ℚ) : Prop :=
  ∃ fs, Inflects s (· + ·) raised [0, 0] fs ∧ Inflects s (· - ·) lowered fs es

namespace Commas

theorem unique (h : Commas s raised lowered es) (h' : Commas s raised lowered gs) : es = gs := by
  obtain ⟨fs, hup, hdown⟩ := h
  obtain ⟨fs', hup', hdown'⟩ := h'
  rw [hup.unique hup'] at hdown
  exact hdown.unique hdown'

theorem two_le_length (h : Commas s raised lowered es) : 2 ≤ es.length := by
  obtain ⟨fs, hup, hdown⟩ := h
  exact hup.length_le.trans hdown.length_le

theorem length_le_tableSize (h : Commas s raised lowered es) : es.length ≤ Prime.tableSize := by
  obtain ⟨fs, hup, hdown⟩ := h
  exact hdown.length_le_tableSize (hup.length_le_tableSize (by simp [Prime.tableSize]))

/-- The entry of a prime counts the inflections by it. -/
theorem getD_eq (h : Commas s raised lowered es) {k q : Nat}
    (hq : Prime.table[k + 2]? = some q) :
    es.getD (k + 2) 0 = countOf q raised - countOf q lowered := by
  obtain ⟨fs, hup, hdown⟩ := h
  have hone := hup.getD_eq (d := 1) add_zero (fun x => rfl) hq
  have htwo := hdown.getD_eq (d := -1) sub_zero (fun x => sub_eq_add_neg x 1) hq
  rw [htwo, hone, List.getD_cons_succ, List.getD_cons_succ, List.getD_nil]
  ring

/-- The vector reaches the positions of all primes of both rows. -/
theorem lt_length (h : Commas s raised lowered es) (hp : Prime.table[j + 2]? = some p)
    {i : Inflection} (hi : i ∈ raised ∨ i ∈ lowered) (hnumber : i.number = p) :
    j + 2 < es.length := by
  obtain ⟨fs, hup, hdown⟩ := h
  rcases hi with hi | hi
  · exact (hup.lt_length hp hi hnumber).trans_le hdown.length_le
  · exact hdown.lt_length hp hi hnumber

/-- What the run that takes the commas of two rows returns. -/
theorem of_inflection (hs : s.Valid) (hmemo : memo.Sound) (hraised : ∀ i ∈ raised, i.IsPrime)
    (hlowered : ∀ i ∈ lowered, i.IsPrime)
    (h : (inflection s raised lowered).Returns memo v memo') :
    ∃ (m : Monzo) (es : List ℚ), v = .exact m ∧ m.IsVector s es ∧ Commas s raised lowered es ∧
      memo'.Sound := by
  obtain ⟨one, rest, hone, h⟩ := Memoized.returns_bind.mp h
  obtain ⟨hunity, rfl⟩ := Memoized.returns_ofExcept.mp hone
  have hunit : one.IsVector s [0, 0] := .of_checked hunity rfl rfl rfl zero_beq_zero
  obtain ⟨w, rest, hup, h⟩ := Memoized.returns_bind.mp h
  obtain ⟨b, fs, rfl, hb, hinflects, hmemo'⟩ :=
    Inflects.of_returns hs (combinesVectors_mul s) hmemo hraised hunit hup
  obtain ⟨m, es, hv, hm, hinflects', hmemo''⟩ :=
    Inflects.of_returns hs (combinesVectors_div s) hmemo' hlowered hb h
  exact ⟨m, es, hv, hm, ⟨fs, hinflects, hinflects'⟩, hmemo''⟩

theorem isPrime_of_inflects (h : Inflects s op row es fs) : ∀ i ∈ row, i.IsPrime := by
  induction h with
  | nil => simp
  | cons position _ _ _ _ ih => exact List.forall_mem_cons.mpr ⟨⟨_, _, position, rfl⟩, ih⟩

/-- The commas of two rows can be taken when their vector is within the bounds. -/
theorem exists_inflection (hs : s.Valid) (hmemo : memo.Sound)
    (h : Commas s raised lowered es) :
    ∃ (m : Monzo) (memo' : CommaMemo),
      (inflection s raised lowered).Returns memo (.exact m) memo' ∧ m.IsVector s es ∧
        memo'.Sound := by
  obtain ⟨fs, hup, hdown⟩ := h
  have hunity := unity_eq hs.absurd_pos 2
  have hunit : IsVector s { exps := [0, 0] } [0, 0] := .of_checked hunity rfl rfl rfl zero_beq_zero
  have hlen : ([0, 0] : List ℚ).length ≤ Prime.tableSize := by simp [Prime.tableSize]
  obtain ⟨w, memo₁, hw⟩ := hup.exists_returns hs (combinesVectors_mul s) hmemo hlen hunit
  obtain ⟨b, fs', rfl, hb, hup', hmemo₁⟩ := Inflects.of_returns hs (combinesVectors_mul s) hmemo
    (isPrime_of_inflects hup) hunit hw
  obtain rfl := hup.unique hup'
  obtain ⟨v, memo₂, hv⟩ := hdown.exists_returns hs (combinesVectors_div s) hmemo₁
    (hup.length_le_tableSize hlen) hb
  obtain ⟨m, es', rfl, hm, hdown', hmemo₂⟩ := Inflects.of_returns hs (combinesVectors_div s) hmemo₁
    (isPrime_of_inflects hdown) hb hv
  obtain rfl := hdown.unique hdown'
  exact ⟨m, memo₂, Memoized.returns_bind.mpr ⟨_, memo, Memoized.returns_ofExcept.mpr ⟨hunity, rfl⟩,
    Memoized.returns_bind.mpr ⟨_, memo₁, hw, hv⟩⟩, hm, hmemo₂⟩

end Commas

end Intonation
