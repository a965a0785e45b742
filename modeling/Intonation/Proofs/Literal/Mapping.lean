import Intonation.Interval.Quantity
import Intonation.Proofs.Literal.Lowering
import Intonation.Proofs.Literal.Maps
import Intonation.Proofs.Monzo.Faults
import Intonation.Proofs.Monzo.Folding

/-!
# The maps that literals spell

The literal of a tuning map spells steps for the primes of its basis, or for the first primes. The
map that it lowers to counts these steps for every ratio of primes of the table: each entry as often
as the ratio has its prime, wherever the entry is placed and whether the prime is an exponent or
part of the residual of the ratio. The steps of the equave are the first entry.

## Main definitions

* `Components.primes`: the primes that the entries are written over
* `Components.steps`: the steps that a tuning map spells for a ratio

## Main statements

* `Literal.sum_placeEntries`: pairing with placed entries
* `Literal.steps_eq_sum`: the spelled steps from the placed entries
* `Literal.isMap_of_lowers`: what a lowered tuning map is
* `Literal.lowers_to_spelled`: a lowered tuning map maps as it is spelled
-/

namespace Intonation
open Intonation.Prime Monzo

/-- The primes that the entries of a tuning map are written over, in their order: those of its
basis, or all of the table. -/
def Components.primes (c : Components) : List Nat :=
  if c.basis = [] then table else c.basis.map fun element => element.num.natAbs

/-- The steps that a tuning map spells for a ratio: each entry as often as the ratio has the prime
that it is written over. -/
def Components.steps (c : Components) (q : ℚ) : ℚ :=
  ((c.primes.zip c.entries).map fun (p, x) => x * padicValRat p q).sum

namespace Literal

variable {s t u : Settings} {c : Components} {m n e : Monzo} {es entries : List ℚ} {q r : ℚ}
  {positions : List Nat} {count : Nat}

/-! ## Placed entries -/

theorem getD_set {row : List ℚ} {i : Nat} (hi : i < row.length) (x : ℚ) (k : Nat) :
    (row.set i x).getD k 0 = if k = i then x else row.getD k 0 := by
  rw [List.getD_eq_getElem?_getD, List.getElem?_set, if_pos hi]
  split
  · next heq =>
    rw [if_pos heq.symm]
    rfl
  · next hne => rw [if_neg (Ne.symm hne), List.getD_eq_getElem?_getD]

/-- Placing an entry where there was none adds its product to a sum of products. -/
theorem sum_set {row : List ℚ} {i N : Nat} (hi : i < row.length) (hN : row.length ≤ N)
    (hzero : row.getD i 0 = 0) (x : ℚ) (g : Nat → ℚ) :
    ∑ k ∈ Finset.range N, (row.set i x).getD k 0 * g k =
      ∑ k ∈ Finset.range N, row.getD k 0 * g k + x * g i := by
  have hentry : ∀ k, (row.set i x).getD k 0 * g k =
      row.getD k 0 * g k + if k = i then x * g i else 0 := by
    intro k
    rw [getD_set hi]
    split
    · next heq => rw [heq, hzero, zero_mul, zero_add]
    · rw [add_zero]
  simp only [hentry]
  rw [Finset.sum_add_distrib, Finset.sum_ite_eq', if_pos (Finset.mem_range.mpr (hi.trans_le hN))]

/-- Placing entries in distinct positions where there were none. -/
theorem sum_foldl_set (hd : positions.Nodup) {row : List ℚ} {N : Nat} (hN : row.length ≤ N)
    (hrow : ∀ i ∈ positions, i < row.length ∧ row.getD i 0 = 0) (entries : List ℚ) (g : Nat → ℚ) :
    ∑ k ∈ Finset.range N, ((positions.zip entries).foldl (fun row (i, x) => row.set i x)
        row).getD k 0 * g k =
      ∑ k ∈ Finset.range N, row.getD k 0 * g k +
        ((positions.zip entries).map fun (i, x) => x * g i).sum := by
  induction positions generalizing entries row with
  | nil => simp
  | cons i positions ih =>
    cases entries with
    | nil => simp
    | cons x entries =>
      obtain ⟨hnot, hd⟩ := List.nodup_cons.mp hd
      obtain ⟨⟨hi, hzero⟩, hrow⟩ := List.forall_mem_cons.mp hrow
      rw [List.zip_cons_cons, List.foldl_cons, List.map_cons, List.sum_cons]
      simp only
      rw [ih hd (by rwa [List.length_set]), sum_set hi hN hzero, add_assoc]
      intro j hj
      -- the later positions are still empty in the row that has the first entry
      have hne : j ≠ i := fun heq => hnot (heq ▸ hj)
      rw [List.length_set, getD_set hi, if_neg hne]
      exact hrow j hj

/-- Pairing with placed entries pairs the entries by their positions. -/
theorem sum_placeEntries (hd : positions.Nodup) {N : Nat} (hN : positions.foldl max 0 + 1 ≤ N)
    (entries : List ℚ) (g : Nat → ℚ) :
    ∑ k ∈ Finset.range N, (placeEntries positions entries).getD k 0 * g k =
      ((positions.zip entries).map fun (i, x) => x * g i).sum := by
  have hzero : ∀ k, (List.replicate (positions.foldl max 0 + 1) (0 : ℚ)).getD k 0 = 0 := by
    intro k
    rw [List.getD_eq_getElem?_getD, List.getElem?_replicate]
    split <;> rfl
  have hlen : (List.replicate (positions.foldl max 0 + 1) (0 : ℚ)).length =
      positions.foldl max 0 + 1 := List.length_replicate
  have hlt : ∀ i ∈ positions, i < (List.replicate (positions.foldl max 0 + 1) (0 : ℚ)).length := by
    intro i hi
    rw [hlen]
    exact Nat.lt_succ_of_le ((le_foldl_max positions 0).2 i hi)
  rw [placeEntries, sum_foldl_set hd (hlen.trans_le hN) fun i hi => ⟨hlt i hi, hzero i⟩]
  simp only [hzero, zero_mul, Finset.sum_const_zero, zero_add]

/-- Pairing entries with the primes that they are written over, in order. -/
theorem sum_getD_zip {f : Nat → ℚ} (h1 : f 1 = 0) (primes : List Nat) (entries : List ℚ) {N : Nat}
    (hN : primes.length ≤ N) :
    ∑ k ∈ Finset.range N, entries.getD k 0 * f (primes.getD k 1) =
      ((primes.zip entries).map fun (p, x) => x * f p).sum := by
  induction primes generalizing entries N with
  | nil => simp [h1]
  | cons p primes ih =>
    cases entries with
    | nil => simp
    | cons x entries =>
      obtain ⟨N, rfl⟩ : ∃ k, N = k + 1 := ⟨N - 1, by rw [List.length_cons] at hN; omega⟩
      rw [Finset.sum_range_succ', List.zip_cons_cons, List.map_cons, List.sum_cons, add_comm,
        ← ih entries (Nat.le_of_succ_le_succ hN)]
      rfl

/-! ## What is spelled -/

/-- The position of a basis element is that of the prime that it is. -/
theorem valPosition_eq_ok_iff {element : ℚ} {i : Nat} :
    valPosition element = .ok i ↔ i < tableSize ∧ element = atPosition i := by
  have hindex : (if element.den = 1 then index? element.num else none) = some i ↔
      i < tableSize ∧ element = atPosition i := by
    constructor
    · intro h
      split at h
      · next hden =>
        obtain ⟨p, hnum, hget⟩ := index?_eq_some_iff.mp h
        have hlt := lt_tableSize hget
        refine ⟨hlt, ?_⟩
        rw [atPosition, List.getD_eq_getElem?_getD, hget,
          ← Rat.coe_int_num_of_den_eq_one hden, hnum]
        rfl
      · cases h
    · rintro ⟨hlt, rfl⟩
      rw [Rat.den_natCast, if_pos rfl, Rat.num_natCast]
      refine index?_eq_some_iff.mpr ⟨_, rfl, ?_⟩
      rw [atPosition_of_lt (lt_length_table hlt)]
      exact List.getElem?_eq_getElem _
  unfold valPosition
  rw [← hindex]
  generalize (if element.den = 1 then index? element.num else none) = found
  cases found with
  | none => exact iff_of_false (by intro h; cases h) (by intro h; cases h)
  | some k =>
    constructor
    · intro h
      cases h
      rfl
    · intro h
      cases h
      rfl

/-- A basis that can be placed consists of the primes at its positions. -/
theorem mapM_valPosition_eq_ok {basis : List ℚ} (h : basis.mapM valPosition = .ok positions) :
    (∀ i ∈ positions, i < tableSize) ∧ basis = positions.map fun i => (atPosition i : ℚ) := by
  induction basis generalizing positions with
  | nil =>
    rw [List.mapM_nil] at h
    cases h
    simp
  | cons element basis ih =>
    rw [List.mapM_cons] at h
    obtain ⟨i, hi, h⟩ := bind_eq_ok.mp h
    obtain ⟨rest, hrest, h⟩ := bind_eq_ok.mp h
    cases h
    obtain ⟨hlt, heq⟩ := valPosition_eq_ok_iff.mp hi
    obtain ⟨hall, hbasis⟩ := ih hrest
    exact ⟨List.forall_mem_cons.mpr ⟨hlt, hall⟩, by rw [List.map_cons, ← heq, ← hbasis]⟩

/-- The primes of a basis that can be placed are the primes at its positions. -/
theorem primes_of_positions (hne : c.basis ≠ [])
    (h : c.basis.mapM valPosition = .ok positions) : c.primes = positions.map atPosition := by
  rw [Components.primes, if_neg hne, (mapM_valPosition_eq_ok h).2, List.map_map]
  refine List.map_congr_left fun i _ => ?_
  rw [Function.comp_apply, Rat.num_natCast, Int.natAbs_natCast]

/-- The spelled steps pair the placed entries with the exponents of all primes. -/
theorem steps_eq_sum {equave : ℚ} (h : valComponents c = .ok (entries, equave))
    (hd : c.basis.Nodup) {N : Nat} (hN : max tableSize entries.length ≤ N) (q : ℚ) :
    c.steps q = ∑ k ∈ Finset.range N, entries.getD k 0 * padicValRat (atPosition k) q := by
  have h1 : ((padicValRat 1 q : Int) : ℚ) = 0 := by rw [padicValRat_one_left, Int.cast_zero]
  rcases valComponents_eq_ok_iff.mp h with ⟨hnil, rfl, -⟩ | ⟨rest, positions, hcons, -, hpos, rfl⟩
  · have hlen : table.length ≤ N := length_table.trans_le ((le_max_left _ _).trans hN)
    rw [Components.steps, Components.primes, if_pos hnil,
      ← sum_getD_zip (f := fun p => (padicValRat p q : ℚ)) h1 table c.entries hlen]
    rfl
  · have hne : c.basis ≠ [] := by
      rw [hcons]
      exact List.cons_ne_nil _ _
    -- distinct elements of the basis have distinct positions
    have hnodup : positions.Nodup := .of_map _ ((mapM_valPosition_eq_ok hpos).2 ▸ hd)
    rw [length_placeEntries] at hN
    rw [sum_placeEntries hnodup ((le_max_right _ _).trans hN) c.entries
      fun k => (padicValRat (atPosition k) q : ℚ), Components.steps, primes_of_positions hne hpos,
      List.zip_map_left, List.map_map]
    rfl

/-! ### Steps of the equave -/

/-- The equave is the first prime that the entries are written over, and none of the others. -/
theorem exists_primes_eq_cons {equave : ℚ} (h : valComponents c = .ok (entries, equave))
    (hd : c.basis.Nodup) : ∃ (p : Nat) (rest : List Nat), p ∈ table ∧ equave = p ∧
      c.primes = p :: rest ∧ Distinct (p :: rest) := by
  rcases valComponents_eq_ok_iff.mp h with ⟨hnil, -, rfl⟩ | ⟨rest, positions, hcons, -, hpos, -⟩
  · obtain ⟨primes, htable, -⟩ := table_eq_cons
    have hprimes : c.primes = table := if_pos hnil
    refine ⟨2, 3 :: primes, ?_, Nat.cast_ofNat.symm, hprimes.trans htable, htable ▸ distinct_table⟩
    rw [htable]
    exact List.mem_cons_self
  · have hne : c.basis ≠ [] := by
      rw [hcons]
      exact List.cons_ne_nil _ _
    obtain ⟨hlt, hbasis⟩ := mapM_valPosition_eq_ok hpos
    have hprimes := primes_of_positions hne hpos
    have hdistinct : Distinct (positions.map atPosition) := by
      refine ⟨?_, .of_map (Nat.cast : Nat → ℚ) ?_⟩
      · rw [List.forall_mem_map]
        exact fun i hi => prime_atPosition (hlt i hi)
      · rw [List.map_map]
        exact hbasis ▸ hd
    cases positions with
    | nil =>
      rw [List.map_nil] at hbasis
      exact absurd hbasis hne
    | cons i positions =>
      rw [hcons, List.map_cons] at hbasis
      refine ⟨atPosition i, positions.map atPosition, ?_, (List.cons.inj hbasis).1, hprimes,
        hdistinct⟩
      rw [atPosition_of_lt (lt_length_table (hlt i List.mem_cons_self))]
      exact List.getElem_mem _

/-- The steps that are spelled for the equave are the first entry. -/
theorem steps_of_primes {p : Nat} {rest : List Nat} {first : ℚ} {others : List ℚ}
    (hprimes : c.primes = p :: rest) (hd : Distinct (p :: rest))
    (hentries : c.entries = first :: others) : c.steps p = first := by
  -- the other entries belong to other primes
  have hzero : ∀ x ∈ (rest.zip others).map fun (r, x) => x * (padicValRat r (p : ℚ) : ℚ),
      x = 0 := by
    rw [List.forall_mem_map]
    rintro ⟨r, x⟩ hmem
    obtain ⟨hr, -⟩ := List.of_mem_zip hmem
    have hne : r ≠ p := fun heq => (List.nodup_cons.mp hd.nodup).1 (heq ▸ hr)
    show x * (padicValRat r (p : ℚ) : ℚ) = 0
    rw [padicValRat_prime (hd.prime r (List.mem_cons_of_mem _ hr)) hd.head, if_neg hne,
      Int.cast_zero, mul_zero]
  have hone : (padicValRat p (p : ℚ) : ℚ) = 1 := by
    rw [padicValRat_prime hd.head hd.head, if_pos rfl, Int.cast_one]
  rw [Components.steps, hprimes, hentries, List.zip_cons_cons, List.map_cons, List.sum_cons,
    List.sum_eq_zero hzero, add_zero]
  simp only
  rw [hone, mul_one]

/-! ## Lowered maps -/

/-- A map counts the ups of an interval, which leaves its coordinates, or exceeds a bound. -/
theorem barring_countingUps {w : Monzo} (hw : IsVector s w es) : Barring False
    (fun v => ∃ n, v = .exact n ∧ n.parts = w.parts) (Interval.countingUps u (.exact w)) := by
  have hnan : (w.cents + 1).isNaN = false :=
    Double.not_isNaN_add (Double.isFinite_of_beq_zero hw.uncorrected) (by decide +kernel)
  have hvanish : ∀ x ∈ w.exps.drop tableSize, x = 0 := vanish_of_bounded hw.bounded
  have hchecked := meets_checked (s := u) (m := { w with cents := w.cents + 1 })
    (F := fun f => f.family = .overflow ∨ f = .tooLarge ∨ f = .tableExhausted ∧ False)
    (fun _ hf => .inl hf) (.inl (.inr (.inl rfl))) (.inr hvanish) (.inr hnan)
  refine (Barring.of_meets hchecked).map fun n hn => ⟨n, rfl, ?_⟩
  rw [hn.1]
  rfl

section
variable {w : Monzo} (hmap : IsMap s c es e) (hw : IsVector s w es) (hd : c.basis.Nodup)
include hmap hw hd

/-- The spelled steps pair the coordinates of a map with those of a ratio. -/
theorem steps_eq_of_coordinates
    (hcoordinates : ∀ k, coordinate m.parts k = padicValRat (atPosition k) q) {N : Nat}
    (hN : max tableSize w.components ≤ N) :
    c.steps q = ∑ k ∈ Finset.range N, coordinate w.parts k * coordinate m.parts k := by
  obtain ⟨entries, equave, hcomponents, hes, -⟩ := hmap.components
  have hlen : entries.length ≤ w.components := by
    rw [hw.components, hes, padded, List.length_append]
    exact Nat.le_add_right _ _
  rw [steps_eq_sum hcomponents hd ((max_le_max_left _ hlen).trans hN)]
  refine Finset.sum_congr rfl fun k _ => ?_
  rw [hcoordinates, parts, hw.residual, coordinate_one, hw.exps, hes, getD_padded]

/-- A map without ups and lifts pairs with a ratio to the steps that it spells. -/
theorem eq_steps_of_dot (hm : ofRatioOver t count q = .ok m) (h : w.dot u m = .ok r) :
    r = c.steps q := by
  rw [steps_eq_of_coordinates hmap hw hd (coordinate_ofRatioOver hm) le_rfl]
  exact (dot_eq_sum h hw.time hw.uncorrected le_rfl).2.2

/-- The steps of the equave are the first entry, within any larger bounds. -/
theorem dot_equave {first : ℚ} {others : List ℚ} (hentries : c.entries = first :: others)
    (hle : s.absurdExponent ≤ u.absurdExponent) : w.dot u e = .ok first := by
  obtain ⟨entries, equave, hcomponents, -, he⟩ := hmap.components
  obtain ⟨p, rest, hp, rfl, hprimes, hdistinct⟩ := exists_primes_eq_cons hcomponents hd
  obtain ⟨e', he'⟩ := exists_folded_prime hp he hle
  obtain ⟨r, hr⟩ := exists_dot (s := u) (if_pos hw.residual) he' (.inl hw.uncorrected)
  rw [hr, eq_steps_of_dot hmap hw hd he hr, steps_of_primes hprimes hdistinct hentries]

/-- An interval of a ratio is mapped to the steps that are spelled for it, or a bound is
exceeded. -/
theorem barring_dotVal {v : Val} {i : Interval} (hv : v.value = .exact w) (hi : i.value = .exact m)
    (hu : u.Valid) (hq : 0 < q) (htable : Ratio.OverTable q) (hm : ofRatioOver t count q = .ok m) :
    Barring False (fun j => j.value.toRatio = .ok (c.steps q)) (i.dotVal u v) := by
  have hzero : m.time = 0 ∧ m.cents == 0 := by
    obtain rfl := parts_of_ofRatioOver hm
    exact ⟨rfl, Double.zero_beq_zero⟩
  unfold Interval.dotVal
  rw [hv, hi]
  refine (barring_countingUps hw).bind fun map hcounted => ?_
  obtain ⟨n, rfl, hparts⟩ := hcounted
  -- a map has no residual, before and after the ups are counted
  have hfolded : Barring False (fun _ => True) (n.folded u) := by
    have hone : n.residual = 1 := (congrArg Prod.snd hparts).trans hw.residual
    rw [folded, if_pos hone]
    trivial
  refine ((barring_dot (barring_folded hq htable hm) hfolded (.inl hzero.2)).and_of_ok
    (R := (· = c.steps q)) fun r hr => ?_).bind fun r hr => ?_
  · have hsum := (dot_eq_sum hr hzero.1 hzero.2 (le_max_left _ w.components)).2.2
    rw [steps_eq_of_coordinates hmap hw hd (coordinate_ofRatioOver hm)
      (max_le_max_right _ (le_max_left _ _)), hsum, hparts]
    exact Finset.sum_congr rfl fun k _ => mul_comm _ _
  · rw [hr.2]
    exact (IsRatio.ofRatioOver (.inl hu.components_le) (c.steps q)).bind fun j hj => hj.toRatio

end

/-- A tuning map without ups and lifts lowers to what it denotes. -/
theorem isMap_of_lowers {context : Option Context} {memo memo' : CommaMemo} {quantity : Quantity}
    (hups : c.ups = 0) (hlifts : c.lifts = 0)
    (h : (lower s context (val c)).Returns memo quantity memo') : ∃ v es w e,
      quantity = .val v ∧ v.value = .exact w ∧ v.equave = .exact e ∧ IsMap s c es e ∧
        IsVector s w es := by
  obtain ⟨given, v, -, hv, rfl, -⟩ := lowerVal_returns_iff.mp h
  obtain ⟨⟨entries, equave⟩, hcomponents, hv⟩ := bind_eq_ok.mp hv
  obtain ⟨e, he, hv⟩ := bind_eq_ok.mp hv
  obtain ⟨w, hw, hv⟩ := bind_eq_ok.mp hv
  rw [hups, hlifts, withArrows_zero] at hv
  obtain ⟨_, hraised, hv⟩ := bind_eq_ok.mp hv
  cases hraised
  simp only [Val.make] at hv
  split at hv
  · cases hv
    exact ⟨_, padded s.numberOfComponents entries, w, e, rfl, rfl, rfl,
      ⟨hups, hlifts, entries, equave, hcomponents, rfl, he⟩,
      .of_checked hw rfl rfl rfl Double.zero_beq_zero⟩
  · cases hv

/-- The literal of a tuning map without ups and lifts, over distinct primes or over no basis, lowers
to the map that it spells, whatever the settings are when it is lowered, when a ratio is built and
when the two are paired.

For every ratio of primes of the table, the map pairs with the value of the ratio to the spelled
steps, and maps every interval with that value to them, unless a bound is exceeded; pairing exceeds
none under bounds no smaller than the default ones for ratios that were built within these. The
steps of the equave are the first entry. -/
theorem lowers_to_spelled {context : Option Context} {memo memo' : CommaMemo}
    {quantity : Quantity} (hups : c.ups = 0) (hlifts : c.lifts = 0) (hbasis : c.basis.Nodup)
    (h : (lower s context (val c)).Returns memo quantity memo') : ∃ v, quantity = .val v ∧
      (∀ (t u : Settings) (count : Nat) (q : ℚ) (m : Monzo), 0 < q → Ratio.OverTable q →
        ofRatioOver t count q = .ok m →
          Barring False (· = c.steps q) (v.value.dot u (.exact m)) ∧
          (t.absurdExponent ≤ ({} : Settings).absurdExponent →
            ({} : Settings).absurdExponent ≤ u.absurdExponent →
              v.value.dot u (.exact m) = .ok (c.steps q)) ∧
          ∀ i : Interval, i.value = .exact m → u.Valid →
            Barring False (fun j => j.value.toRatio = .ok (c.steps q))
              (Quantity.dot u (.val v) (.interval i))) ∧
      ∀ first others, c.entries = first :: others → ∀ u : Settings,
        s.absurdExponent ≤ u.absurdExponent → v.divisions u = .ok first := by
  obtain ⟨v, es, w, e, rfl, hv, he, hmap, hw⟩ := isMap_of_lowers hups hlifts h
  have hfolded : ∀ u, w.folded u = .ok w := fun u => if_pos hw.residual
  refine ⟨v, rfl, fun t u count q m hq htable hm => ⟨?_, fun ht hu => ?_, fun i hi hu => ?_⟩,
    fun first others hentries u hle => ?_⟩
  · rw [hv]
    refine ((barring_dot ?_ (barring_folded hq htable hm) (.inl hw.uncorrected)).and_of_ok
      fun r hr => eq_steps_of_dot hmap hw hbasis hm hr).mono fun r h => h.2
    rw [hfolded]
    trivial
  · obtain ⟨m', hm'⟩ := exists_folded_of_default hq htable hm ht hu
    obtain ⟨r, hr⟩ := exists_dot (hfolded u) hm' (.inl hw.uncorrected)
    rw [hv, ← eq_steps_of_dot hmap hw hbasis hm hr]
    exact hr
  · exact barring_dotVal hmap hw hbasis hv hi hu hq htable hm
  · rw [Val.divisions, hv, he]
    exact dot_equave hmap hw hbasis hentries hle

/-- A map over three primes, the first of them beyond the default basis, and a ratio that is built
over the prime two alone and has a prime that the map does not have. -/
theorem lowers_to_spelled_outsideBasis :
    let c : Components := { entries := [5, -3, 1 / 2], basis := [101, 2, 7] }
    let q : ℚ := 101 ^ 2 * 3 / (2 ^ 2 * 7)
    ∃ v m memo', (lower {} none (val c)).Returns {} (.val v) memo' ∧
      ofRatioOver {} 1 q = .ok m ∧ v.value.dot {} (.exact m) = .ok (31 / 2) ∧
      v.divisions { numberOfComponents := 1 } = .ok 5 := by
  intro c q
  have hreturns : ((lower {} none (val c)).run.run {}).1.isOk ∧ (ofRatioOver {} 1 q).isOk := by
    decide +kernel
  have hprime : Nat.Prime 101 := by norm_num
  have hexponents : ∀ p : Nat, p.Prime → (padicValRat p q : ℚ) =
      2 * (if p = 101 then 1 else 0) + (if p = 3 then 1 else 0) -
        (2 * (if p = 2 then 1 else 0) + if p = 7 then 1 else 0) := by
    intro p hp
    have := Fact.mk hp
    have hq : q = ((101 : Nat) : ℚ) ^ 2 * (3 : Nat) / ((2 : Nat) ^ 2 * (7 : Nat)) := rfl
    rw [hq, padicValRat.div (by norm_num) (by norm_num),
      padicValRat.mul (by norm_num) (by norm_num), padicValRat.mul (by norm_num) (by norm_num),
      padicValRat.pow, padicValRat.pow,
      padicValRat_prime hp hprime, padicValRat_prime hp Nat.prime_three,
      padicValRat_prime hp Nat.prime_two, padicValRat_prime hp (by norm_num : Nat.Prime 7)]
    push_cast
    rfl
  have hmem : ∀ p, p = 101 ∨ p = 3 ∨ p = 2 ∨ p = 7 → p ∈ table := by
    rintro p (rfl | rfl | rfl | rfl) <;> exact mem_table.mpr ⟨by norm_num, by decide⟩
  have htable : Ratio.OverTable q := by
    intro p hp hval
    refine hmem p (by_contra fun hnot => hval ?_)
    push Not at hnot
    have hzero := hexponents p hp
    rw [if_neg hnot.1, if_neg hnot.2.1, if_neg hnot.2.2.1, if_neg hnot.2.2.2] at hzero
    simpa using hzero
  have hsteps : c.steps q = 31 / 2 := by
    have hprimes : c.primes = [101, 2, 7] := by decide +kernel
    rw [Components.steps, hprimes]
    simp only [c, List.zip_cons_cons, List.zip_nil_left, List.map_cons, List.map_nil, List.sum_cons,
      List.sum_nil, hexponents _ hprime, hexponents _ Nat.prime_two,
      hexponents _ (by norm_num : Nat.Prime 7)]
    norm_num
  obtain ⟨quantity, hquantity⟩ := exists_of_isOk hreturns.1
  obtain ⟨m, hm⟩ := exists_of_isOk hreturns.2
  have hdistinct : c.basis.Nodup := by decide +kernel
  have hlowers : (lower {} none (val c)).Returns {} quantity
      ((lower {} none (val c)).run.run {}).2 := Prod.ext hquantity rfl
  obtain ⟨v, rfl, hpairs, hequave⟩ := lowers_to_spelled rfl rfl hdistinct hlowers
  have hdot := (hpairs {} {} 1 q m (by norm_num [q]) htable hm).2.1 le_rfl le_rfl
  exact ⟨v, m, _, hlowers, hm, hsteps ▸ hdot, hequave 5 _ rfl _ le_rfl⟩

end Literal

end Intonation
