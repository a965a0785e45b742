import Intonation.Proofs.FJS.Vectors
import Intonation.Proofs.Monzo.Equave
import Intonation.Proofs.Monzo.Faults

/-!
# Note names at every octave

The octave of a note is found from the double nearest to a seventh of its steps. Exponents within
any bounds are far enough below the range of doubles for that double to be there, so every vector
of twos and threes has a name or none. Where the double has the whole part of the seventh, the name
spells the vector; beyond the steps that doubles tell apart, it can be an octave off.

## Main definitions

* `Pitch.natural`, `Pitch.alteration`: the nominal of a vector and the offset from it
* `Pitch.IsExact`: the octave of a vector is the one that its steps have

## Main statements

* `Monzo.abs_le_of_boundsFault?`: exponents within any bounds
* `Pitch.exists_accidentals?_iff`: which offsets accidentals write
* `Pitch.isExact_of_abs_lt`: few enough steps have their octave
* `Pitch.ofMonzo_spells`: which vectors have names, and which names spell their vectors
* `Pitch.ofMonzo_octaveOff`: a name that is an octave off
-/

namespace Intonation
open Double Intonation.Prime

/-! ## Exponents below the range of doubles -/

/-- A ratio that a size scales into the range of doubles lies below that range by the size. -/
theorem Double.Within.le_of_size {w k : Nat} {bound q : ℚ} (hw : w < infinityBits)
    (hfull : 2 ^ 52 ≤ mantissaOf w) (hexact : ratioOf (ratioBits (2 ^ k)) = 2 ^ k)
    (hrange : infinityBits ≤ ratioBits (2 ^ k * ratioOf w)) (h : Within (ofWord w) bound q) :
    q ≤ 2 ^ k := by
  by_contra hlt
  have hq : (2 : ℚ) ^ k < q := not_le.mp hlt
  have hpow : (0 : ℚ) < 2 ^ k := by positivity
  obtain ⟨y, hy, hyb⟩ := h
  have hbits := ratioBits_le_ratioBits hpow hq.le
  have hpos : 0 < ratioBits (2 ^ k) := by
    by_contra h0
    rw [show ratioBits (2 ^ k) = 0 by omega] at hexact
    norm_num [ratioOf, mantissaOf] at hexact
    exact hpow.ne hexact
  have hsize : 0 < ratioOf w := by
    have hmantissa : 0 < mantissaOf w := lt_of_lt_of_le (by norm_num) hfull
    rw [ratioOf]
    positivity
  rw [ofRat?_of_pos (hpow.trans hq)] at hy
  split at hy
  · cases hy
  · next hfinite =>
    cases hy
    rw [← ofWord, ofWord_mul (hpos.trans_le hbits) (not_le.mp hfinite) hfull hw,
      Bool.eq_false_iff] at hyb
    refine hyb ((exceeds_ofWord (min_le_right _ _) bound).mpr (.inl (min_eq_right ?_)))
    refine hrange.trans (ratioBits_le_ratioBits (mul_pos hpow hsize) ?_)
    refine mul_le_mul_of_nonneg_right ?_ (ratioOf_nonneg w)
    rw [← hexact]
    exact ratioOf_le_ratioOf hbits

/-- No prime is smaller than an octave. -/
theorem Prime.exists_word_of_mem_measures {pm : Nat × Float} (h : pm ∈ measures) :
    ∃ w, pm.2 = ofWord w ∧ w < infinityBits ∧ 2 ^ 52 ≤ mantissaOf w ∧ 1200 ≤ ratioOf w := by
  obtain ⟨p, hp, rfl⟩ := List.mem_map.mp h
  obtain ⟨hlo, hhi⟩ := octaves_mem_table hp
  obtain ⟨heq, -, hword⟩ := cents_eq_ofWord hlo (hhi.trans (by norm_num))
  have hone : (1 : ℚ) ≤ ratioOf (ratioBits (Ratio.octaves p)) := by
    rw [← ratioOf_ratioBits_one]
    exact ratioOf_le_ratioOf (ratioBits_le_ratioBits one_pos hlo)
  have hbits : ratioBits 1200 ≤ ratioBits (1200 * ratioOf (ratioBits (Ratio.octaves p))) :=
    ratioBits_le_ratioBits (by norm_num) (by linarith)
  have hfull : 2 ^ 52 ≤ ratioBits 1200 := by decide +kernel
  have hexact : ratioOf (ratioBits 1200) = 1200 := by decide +kernel
  refine ⟨_, heq, hword, le_mantissaOf (hfull.trans hbits), ?_⟩
  conv_lhs => rw [← hexact]
  exact ratioOf_le_ratioOf hbits

namespace Monzo

/-- Exponents within any bounds lie below the range of doubles by the size of an octave. -/
theorem abs_le_of_boundsFault? {s : Settings} {m : Monzo} (h : boundsFault? s m = none) :
    ∀ e ∈ m.exps, |e| ≤ 2 ^ 1014 := by
  have hexps := (boundsFault?_eq_none_iff.mp h).1
  have hexact : ratioOf (ratioBits (2 ^ 1014)) = 2 ^ 1014 := by decide +kernel
  have htop : infinityBits ≤ ratioBits (2 ^ 1014 * 1200) := by decide +kernel
  have hall : ∀ (primes : List (Nat × Float)) (es : List ℚ), primes ⊆ measures →
      exponentFault? (centsBound s) primes es = none → ∀ e ∈ es, |e| ≤ 2 ^ 1014 := by
    intro primes es hsub
    induction es generalizing primes with
    | nil => simp
    | cons e es ih =>
      intro h
      rw [List.forall_mem_cons]
      cases primes with
      | nil =>
        rw [exponentFault?] at h
        split at h
        · next he => exact ⟨by rw [he, abs_zero]; positivity, ih [] hsub h⟩
        · cases h
      | cons pm primes =>
        obtain ⟨hhead, htail⟩ := exponentFault?_cons.mp h
        refine ⟨?_, ih primes (List.subset_of_cons_subset hsub) htail⟩
        rcases hhead with rfl | hwithin
        · rw [abs_zero]
          positivity
        · obtain ⟨w, hpm, hw, hfull, hsize⟩ := exists_word_of_mem_measures (hsub List.mem_cons_self)
          rw [hpm] at hwithin
          refine hwithin.le_of_size hw hfull hexact (htop.trans ?_)
          exact ratioBits_le_ratioBits (by norm_num)
            (mul_le_mul_of_nonneg_left hsize (by positivity))
  exact hall measures m.exps (List.Subset.refl _) hexps

end Monzo

namespace Pitch

/-! ## Accidentals -/

/-- Taking out pairs of apotomes leaves no more than two. -/
theorem doubles_spec {size : ℚ} (h : 0 ≤ size) :
    0 ≤ size - 2 * doubles size ∧ size - 2 * doubles size ≤ 2 := by
  have hceil : doubles size = ((size - 2) / 2).ceil.toNat := rfl
  have hle : (size - 2) / 2 ≤ (doubles size : ℚ) := by
    have := Rat.ceil_le_iff.mp (Int.self_le_toNat ((size - 2) / 2).ceil)
    rwa [← hceil, Int.cast_natCast] at this
  rcases Nat.eq_zero_or_pos (doubles size) with h0 | hpos
  · rw [h0] at hle ⊢
    constructor <;> norm_num at hle ⊢ <;> linarith
  · have hlt : (doubles size : ℚ) < (size - 2) / 2 + 1 := by
      have hcast : ((size - 2) / 2).ceil = (doubles size : Nat) := by omega
      have hpred := Rat.lt_ceil_iff.mp (show (doubles size : Int) - 1 < ((size - 2) / 2).ceil by omega)
      push_cast at hpred
      linarith
    constructor <;> linarith

/-- Halves from zero to one. -/
theorem den_two_mul_iff {x : ℚ} (h0 : 0 ≤ x) (h1 : x ≤ 1) :
    (2 * x).den = 1 ↔ x = 0 ∨ x = 1 ∨ x = 1 / 2 := by
  constructor
  · intro h
    obtain ⟨k, hk⟩ := exists_intCast_of_den h
    have hlo : (0 : Int) ≤ k := by
      have : (0 : ℚ) ≤ k := by linarith
      exact_mod_cast this
    have hhi : k ≤ 2 := by
      have : (k : ℚ) ≤ 2 := by linarith
      exact_mod_cast this
    interval_cases k
    · left
      push_cast at hk
      linarith
    · right; right
      push_cast at hk
      linarith
    · right; left
      push_cast at hk
      linarith
  · rintro (rfl | rfl | rfl) <;> norm_num

theorem exists_smallAccidentals?_iff {negative : Bool} {size : ℚ} (h0 : 0 ≤ size) (h1 : size ≤ 1) :
    (∃ as, smallAccidentals? negative size = some as) ↔ (2 * size).den = 1 := by
  rw [den_two_mul_iff h0 h1, smallAccidentals?]
  split
  · next h => simp [h]
  · next hne =>
    split
    · next h => simp [h]
    · next hne' => simp [hne, hne']

/-- Accidentals write the multiples of half an apotome. -/
theorem exists_accidentals?_iff {x : ℚ} : (∃ as, accidentals? x = some as) ↔ (2 * x).den = 1 := by
  obtain ⟨hlo, hhi⟩ := doubles_spec (abs_nonneg x)
  have hsign : (2 * x).den = 1 ↔ (2 * |x|).den = 1 := by
    rcases abs_choice x with h | h
    · rw [h]
    · rw [h, mul_neg, Rat.den_neg_eq_den]
  -- whole apotomes that are taken out make no difference
  have hwhole : ∀ (k : Int), (2 * (|x| - k)).den = 1 ↔ (2 * |x|).den = 1 := by
    intro k
    constructor
    · intro h
      obtain ⟨j, hj⟩ := exists_intCast_of_den h
      rw [show 2 * |x| = ((j + 2 * k : Int) : ℚ) by push_cast; linarith, Rat.den_intCast]
    · intro h
      obtain ⟨j, hj⟩ := exists_intCast_of_den h
      rw [show 2 * (|x| - k) = ((j - 2 * k : Int) : ℚ) by push_cast; linarith, Rat.den_intCast]
  unfold accidentals?
  simp only [rat_abs_eq, Option.map_eq_some_iff]
  rw [hsign]
  by_cases hrest : 1 < |x| - 2 * doubles |x|
  · have hsmall := @exists_smallAccidentals?_iff (decide (x < 0)) (|x| - 2 * doubles |x| - 1)
      (by linarith) (by linarith)
    have hshift := hwhole (2 * doubles |x| + 1)
    push_cast at hshift
    rw [← sub_sub] at hshift
    rw [← hshift, ← hsmall]
    simp [hrest]
  · have hsmall := @exists_smallAccidentals?_iff (decide (x < 0)) (|x| - 2 * doubles |x|)
      hlo (not_lt.mp hrest)
    have hshift := hwhole (2 * doubles |x|)
    push_cast at hshift
    rw [← hshift, ← hsmall]
    simp [hrest]

/-! ## Octaves -/

/-- The nominal that has the steps of a vector, octaves aside. -/
def natural (v : Skeleton) : String × Skeleton :=
  naturals.getD (v.stepspan.num % 7).toNat ("C", ⟨0, 0⟩)

/-- The offset of a vector from its nominal, in apotomes. -/
def alteration (v : Skeleton) : ℚ := (v.threes - (natural v).2.threes) / 7

/-- The octave of a vector is the whole part of a seventh of its steps, counted from C4. -/
def IsExact (v : Skeleton) : Prop := octaveOf v.stepspan.num = .ok (v.stepspan.num / 7 + 4)

/-- Few enough steps have their octave. -/
theorem isExact_of_abs_lt {v : Skeleton} (hden : v.stepspan.den = 1) (h : |v.stepspan| < 2 ^ 50) :
    IsExact v := by
  have hnum := Skeleton.exists_steps hden
  rw [abs_lt, hnum] at h
  have hlow : -2 ^ 50 < v.stepspan.num := by exact_mod_cast h.1
  have hhigh : v.stepspan.num < 2 ^ 50 := by exact_mod_cast h.2
  have hsmall : |mkRat v.stepspan.num 7| ≤ 2 ^ 1023 := by
    have hle : |(v.stepspan.num : ℚ)| ≤ 2 ^ 50 := abs_le.mpr ⟨h.1.le, h.2.le⟩
    rw [Rat.mkRat_eq_div, abs_div]
    calc |(v.stepspan.num : ℚ)| / |((7 : Nat) : ℚ)| ≤ |(v.stepspan.num : ℚ)| :=
          div_le_self (abs_nonneg _) (by norm_num)
      _ ≤ 2 ^ 1023 := hle.trans (two_pow_le_two_pow (by norm_num))
  obtain ⟨x, hx⟩ := exists_ofRat?_of_abs_le hsmall
  rw [IsExact, octaveOf, Number.toDouble_eq, hx, ← floorInt_of_ofRat?_seventh hlow hhigh hx]
  rfl

/-- A vector within any bounds has an octave. -/
theorem exists_octaveOf {v : Skeleton} (hden : v.stepspan.den = 1) (htwos : |v.twos| ≤ 2 ^ 1014)
    (hthrees : |v.threes| ≤ 2 ^ 1014) : ∃ octave, octaveOf v.stepspan.num = .ok octave := by
  have hsmall : |mkRat v.stepspan.num 7| ≤ 2 ^ 1023 := by
    rw [Rat.mkRat_eq_div, ← Skeleton.exists_steps hden, abs_div]
    calc |v.stepspan| / |((7 : Nat) : ℚ)| ≤ |v.stepspan| :=
          div_le_self (abs_nonneg _) (by norm_num)
      _ ≤ |v.twos * 7| + |v.threes * 11| := abs_add_le _ _
      _ = |v.twos| * 7 + |v.threes| * 11 := by rw [abs_mul, abs_mul]; norm_num
      _ ≤ 2 ^ 1014 * 7 + 2 ^ 1014 * 11 :=
        add_le_add (mul_le_mul_of_nonneg_right htwos (by norm_num))
          (mul_le_mul_of_nonneg_right hthrees (by norm_num))
      _ ≤ 2 ^ 1014 * 2 ^ 9 := by
        rw [← mul_add]
        exact mul_le_mul_of_nonneg_left (by norm_num) (by positivity)
      _ = 2 ^ 1023 := (pow_add 2 1014 9).symm
  obtain ⟨x, hx⟩ := exists_ofRat?_of_abs_le hsmall
  rw [octaveOf, Number.toDouble_eq, hx]
  exact ⟨_, rfl⟩

/-- The name of a vector of whole steps, made of its accidentals and its octave. -/
theorem ofSkeleton_eq {v : Skeleton} {octave : Int} (hden : v.stepspan.den = 1)
    (hoctave : octaveOf v.stepspan.num = .ok octave) :
    ofSkeleton v = if 100 < |alteration v| then .ok none
      else .ok ((accidentals? (alteration v)).map fun accidentals =>
        { nominal := (natural v).1, accidentals, octave }) := by
  unfold ofSkeleton
  rw [if_neg (not_not.mpr hden)]
  show (octaveOf v.stepspan.num >>= fun octave => if Skeleton.maxOffset < (alteration v).abs
    then .ok none else .ok ((accidentals? (alteration v)).map fun accidentals =>
      Pitch.mk (natural v).1 accidentals octave)) = _
  rw [hoctave, rat_abs_eq]
  rfl

/-- A vector of whole steps, not too far from its nominal, has a name when accidentals write the
offset from it; any other vector has none. -/
theorem exists_ofSkeleton {v : Skeleton} (htwos : |v.twos| ≤ 2 ^ 1014)
    (hthrees : |v.threes| ≤ 2 ^ 1014) : ∃ name, ofSkeleton v = .ok name ∧
      (name = none ↔ v.stepspan.den ≠ 1 ∨ (2 * alteration v).den ≠ 1 ∨ 100 < |alteration v|) := by
  by_cases hden : v.stepspan.den = 1
  · obtain ⟨octave, hoctave⟩ := exists_octaveOf hden htwos hthrees
    rw [ofSkeleton_eq hden hoctave]
    by_cases hfar : 100 < |alteration v|
    · exact ⟨none, if_pos hfar, by simp [hfar]⟩
    · refine ⟨_, if_neg hfar, ?_⟩
      rw [Option.map_eq_none_iff, ← not_iff_not, ← ne_eq, Option.ne_none_iff_exists',
        exists_accidentals?_iff]
      simp [hden, hfar]
  · refine ⟨none, ?_, by simp [hden]⟩
    rw [ofSkeleton, if_pos hden]

/-! ## Names of vectors -/

variable {s : Settings} {m : Monzo} {es : List ℚ}

/-- A vector of twos and threes is strictly equal to their value, unless the prime table is too
short for it. -/
theorem exists_toMonzo_iff (hm : m.IsVector s es) (hflat : ∀ e ∈ es.drop 2, e = 0) {p : Pitch}
    {octaves : Int} (hp : p.skeleton =
      .ok (Skeleton.shift ⟨es.getD 0 0, es.getD 1 0⟩ octaves 0)) :
    (∃ n, p.toMonzo s = .ok n ∧ n.strictEquals s m = .ok true) ↔
      octaves = 0 ∧ m.components ≤ tableSize := by
  have hvalue : p.toMonzo s = (Skeleton.shift ⟨es.getD 0 0, es.getD 1 0⟩ octaves 0).toMonzo s := by
    rw [toMonzo, hp]
    rfl
  rw [hvalue]
  constructor
  · rintro ⟨n, hn, heq⟩
    obtain ⟨hshift, hlen⟩ :=
      (Skeleton.strictEquals_iff (Skeleton.isVector_of_toMonzo hn) hm hflat).mp heq
    have htwos := congrArg Skeleton.twos hshift
    exact ⟨by simpa [Skeleton.shift] using htwos, hlen⟩
  · rintro ⟨rfl, hlen⟩
    have hvector := Skeleton.isVector_exps_of_flat hm hflat
    rw [Int.cast_zero, Skeleton.shift_zero]
    exact ⟨_, Skeleton.toMonzo_of_isVector hvector,
      (Skeleton.strictEquals_iff hvector hm hflat).mpr ⟨rfl, hlen⟩⟩

/-- A vector of rational exponents of two and three has a name exactly when it spans whole steps
and is a multiple of half an apotome, of at most a hundred, away from its nominal. The value of the
name is strictly equal to the vector exactly when the octave found for it is the one that its steps
have, as it is for fewer steps than doubles tell apart, and the prime table is as long as the
vector. -/
theorem ofMonzo_spells (hm : m.IsVector s es) (hflat : ∀ e ∈ es.drop 2, e = 0) :
    let v : Skeleton := ⟨es.getD 0 0, es.getD 1 0⟩
    ∃ name, ofMonzo m = .ok name ∧
      (name = none ↔ v.stepspan.den ≠ 1 ∨ (2 * alteration v).den ≠ 1 ∨ 100 < |alteration v|) ∧
      (|v.stepspan| < 2 ^ 50 → v.stepspan.den = 1 → IsExact v) ∧
      ∀ p, name = some p → ((∃ n, p.toMonzo s = .ok n ∧ n.strictEquals s m = .ok true) ↔
        IsExact v ∧ m.components ≤ tableSize) := by
  intro v
  have hread : Skeleton.ofMonzo m = .ok v := by
    have htwos := hm.exponentOf (k := 0) (p := 2) (by decide +kernel)
    have hthrees := hm.exponentOf (k := 1) (p := 3) (by decide +kernel)
    exact bind_eq_ok.mpr ⟨_, htwos, bind_eq_ok.mpr ⟨_, hthrees, rfl⟩⟩
  have hsmall : ∀ k, |es.getD k 0| ≤ 2 ^ 1014 := by
    intro k
    have hall := Monzo.abs_le_of_boundsFault? hm.bounded
    rw [hm.exps] at hall
    rw [List.getD_eq_getElem?_getD]
    rcases hget : es[k]? with - | e
    · simp
    · exact hall e (List.mem_of_getElem? hget)
  obtain ⟨name, hname, hnone⟩ := exists_ofSkeleton (v := v) (hsmall 0) (hsmall 1)
  refine ⟨name, ?_, hnone, fun hfew hden => isExact_of_abs_lt hden hfew, ?_⟩
  · rw [ofMonzo, hread]
    exact hname
  · rintro p rfl
    obtain ⟨hoctave, hskeleton⟩ := skeleton_shift_of_ofSkeleton hname
    rw [exists_toMonzo_iff hm hflat hskeleton, IsExact, hoctave, Except.ok.injEq, sub_eq_zero]

/-- A note trillions of octaves above C4 has its octave. -/
theorem ofMonzo_spells_highB :
    let s : Settings := { absurdExponent := 2 ^ 48 }
    let m : Monzo := { exps := [2 ^ 45 - 7, 5, 0] }
    m.IsVector s [2 ^ 45 - 7, 5, 0] ∧ (∀ e ∈ [(2 : ℚ) ^ 45 - 7, 5, 0].drop 2, e = 0) ∧
      ∃ p, ofMonzo m = .ok (some p) ∧
        ∃ n, p.toMonzo s = .ok n ∧ n.strictEquals s m = .ok true := by
  intro s m
  have hm : m.IsVector s [2 ^ 45 - 7, 5, 0] :=
    ⟨rfl, rfl, rfl, zero_beq_zero, by decide +kernel⟩
  have hflat : ∀ e ∈ [(2 : ℚ) ^ 45 - 7, 5, 0].drop 2, e = 0 := by simp
  have hname : ofMonzo m = .ok (some ⟨"B", [], 2 ^ 45 + 4⟩) := by decide +kernel
  have hden : (Skeleton.mk (2 ^ 45 - 7) 5).stepspan.den = 1 := by decide +kernel
  have hfew : |(Skeleton.mk (2 ^ 45 - 7) 5).stepspan| < 2 ^ 50 := by
    rw [Skeleton.stepspan, abs_lt]
    norm_num
  obtain ⟨name, hname', -, hexact, hspells⟩ := ofMonzo_spells hm hflat
  rw [hname, Except.ok.injEq] at hname'
  exact ⟨hm, hflat, _, hname, (hspells _ hname'.symm).mpr ⟨hexact hfew hden, by decide⟩⟩

/-- The double nearest to a seventh of the steps of a B can be the next whole number, so that the
name is an octave above the vector. -/
theorem ofMonzo_octaveOff :
    let s : Settings := { absurdExponent := 2 ^ 52 }
    let m : Monzo := { exps := [2 ^ 51 - 7, 5] }
    let p : Pitch := ⟨"B", [], 2 ^ 51 + 5⟩
    let n : Monzo := { exps := [2 ^ 51 - 6, 5] }
    m.IsVector s [2 ^ 51 - 7, 5] ∧ ofMonzo m = .ok (some p) ∧ p.toMonzo s = .ok n ∧
      n.strictEquals s m = .ok false := by
  intro s m p n
  have hn : n.IsVector s [2 ^ 51 - 6, 5] := ⟨rfl, rfl, rfl, zero_beq_zero, by decide +kernel⟩
  refine ⟨⟨rfl, rfl, rfl, zero_beq_zero, by decide +kernel⟩, by decide +kernel, ?_, ?_⟩
  · have hskeleton : p.skeleton = .ok ⟨2 ^ 51 - 6, 5⟩ := by decide +kernel
    rw [toMonzo, hskeleton]
    exact Skeleton.toMonzo_of_isVector hn
  · rw [Monzo.strictEquals, Monzo.align_of_components_eq (a := n) (b := m) rfl]
    have hne : (2 ^ 51 - 6 : ℚ) ≠ 2 ^ 51 - 7 := by norm_num
    exact congrArg Except.ok (by simp [n, m, hne])

end Pitch

end Intonation
