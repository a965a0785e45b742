import Intonation.Proofs.Double.Whole
import Intonation.Proofs.FJS.Spelling
import Intonation.Proofs.Monzo.Magnitude

/-!
# What a spelled value is put together from

The name and the inflections that a value is spelled with stand for twos and threes and for the
commas of primes. Over enough primes, the value is the sum of both, whether its primes were
tracked or held in the residual.

## Main definitions

* `spellWith`: spelling by a way of naming twos and threes
* `Composed`: a value is twos and threes with the commas of inflections

## Main statements

* `of_spellWith`: a value that is spelled splits, and its base is named
* `Splits.exists_composed`: what a value that splits is put together from
* `Pitch.skeleton_of_ofSkeleton_of_bounded`: note names of vectors within the default bounds
-/

namespace Intonation
open Double Literal Monzo

variable {s : Settings} {m n base : Monzo} {flavor : String} {memo memo' : CommaMemo}
  {cs : List ℚ} {i : Inflections} {w : Skeleton}

/-! ## Spelling -/

theorem Inflections.eq_of_make {i' : Inflections} (h : i.make = .ok i') : i = i' := by
  unfold Inflections.make at h
  split at h
  · cases h
  · cases h
  · exact Except.ok.inj h

/-- The name of the base of a value that splits, with the inflections. -/
def spellWith {α : Type} (s : Settings) (m : Monzo) (flavor : String)
    (read : Monzo → Except Fault (Option α)) : Memoized (Option (α × Inflections)) := do
  match ← skeletonOf s m flavor with
  | none => return none
  | some (base, inflections) =>
    match ← Memoized.ofExcept (read base) with
    | none => return none
    | some name =>
      let inflections ← Memoized.ofExcept inflections.make
      return some (name, inflections)

theorem spellInterval_eq : spellInterval s m flavor = spellWith s m flavor Pythagorean.ofMonzo := by
  unfold spellInterval spellWith
  refine bind_congr fun found => ?_
  cases found with
  | none => rfl
  | some parts =>
    refine bind_congr fun named => ?_
    cases named <;> rfl

theorem spellPitch_eq : spellPitch s m flavor = spellWith s m flavor Pitch.ofMonzo := by
  unfold spellPitch spellWith
  refine bind_congr fun found => ?_
  cases found with
  | none => rfl
  | some parts =>
    refine bind_congr fun named => ?_
    cases named <;> rfl

/-- A value that is spelled splits, and its base is named. -/
theorem of_spellWith {α : Type} {read : Monzo → Except Fault (Option α)} {name : α} (hs : s.Valid)
    (hmemo : memo.Sound) (h : (spellWith s m flavor read).Returns memo (some (name, i)) memo') :
    ∃ base, Splits s m base i ∧ read base = .ok (some name) := by
  obtain ⟨found, rest, hfound, h⟩ := Memoized.returns_bind.mp h
  cases found with
  | none => exact absurd (Memoized.returns_pure.mp h).1 (by simp)
  | some parts =>
    obtain ⟨base, inflections⟩ := parts
    obtain ⟨hsplits, -⟩ := of_skeletonOf hs hmemo hfound
    obtain ⟨named, rest, hnamed, h⟩ := Memoized.returns_bind.mp h
    obtain ⟨hread, rfl⟩ := Memoized.returns_ofExcept.mp hnamed
    cases named with
    | none => exact absurd (Memoized.returns_pure.mp h).1 (by simp)
    | some name' =>
      obtain ⟨made, rest, hmade, h⟩ := Memoized.returns_bind.mp h
      obtain ⟨hmake, rfl⟩ := Memoized.returns_ofExcept.mp hmade
      obtain ⟨heq, -⟩ := Memoized.returns_pure.mp h
      cases heq
      obtain rfl := Inflections.eq_of_make hmake
      exact ⟨base, hsplits, hread⟩

/-! ## Putting together -/

/-- A value is twos and threes with the commas of inflections, over enough primes. -/
structure Composed (s : Settings) (m : Monzo) (w : Skeleton) (i : Inflections) (cs : List ℚ) :
    Prop where
  commas : Commas s i.superscripts i.subscripts cs
  skeleton_bounded : boundsFault? s { exps := w.exps } = none
  bounded : boundsFault? s { exps := zipEntries (· + ·) w.exps cs } = none
  spread : ∀ count, m.components ≤ count → cs.length ≤ count → count ≤ Prime.tableSize →
    Monzo.spread count m.parts = (padded count (zipEntries (· + ·) w.exps cs), 1)

/-- A vector of zeros beyond twos and threes. -/
theorem exists_eq_padded {es : List ℚ} (hlen : 2 ≤ es.length) (h : ∀ e ∈ es.drop 2, e = 0) :
    ∃ w : Skeleton, es = padded es.length w.exps := by
  match es, hlen with
  | t :: th :: rest, _ =>
    refine ⟨⟨t, th⟩, ?_⟩
    rw [Skeleton.exps, List.length_cons, List.length_cons, padded_succ_cons, padded_succ_cons,
      padded_nil]
    exact congrArg _ (congrArg _ (List.eq_replicate_of_mem h))

/-- A vector is within the bounds when it is with zeros behind it. -/
theorem bounded_of_padded {count : Nat} {es : List ℚ} (h : m.IsVector s (padded count es)) :
    boundsFault? s { exps := es } = none := by
  have hshort := IsVector.padded_of_append h 0
  rw [padded_of_le (Nat.zero_le _)] at hshort
  exact hshort.bounded

theorem combined_padded {count : Nat} {es fs : List ℚ} (hes : es.length ≤ count)
    (hfs : fs.length ≤ count) : combined (padded count es, 1) (padded count fs, 1) =
      (padded count (zipEntries (· + ·) es fs), 1) := by
  have hlen : (padded count es).length = (padded count fs).length := by
    rw [length_padded, length_padded, max_eq_left hes, max_eq_left hfs]
  rw [combined, ← zipEntries_of_length_eq hlen, zipEntries_padded (add_zero 0), mul_one]

/-- A value that splits is put together from the twos and threes of its base and from the commas
of its inflections. -/
theorem Splits.exists_composed (h : Splits s m base i) (hm : boundsFault? s m = none) :
    ∃ w cs, Skeleton.ofMonzo base = .ok w ∧ Composed s m w i cs := by
  obtain ⟨c, cs, hc, hcommas, hdiv⟩ := h.commas
  obtain ⟨-, hcomponents, htime, hcents, hbase⟩ := parts_of_div hdiv
  have htwo := hcommas.two_le_length
  rw [hc.components] at hcomponents
  obtain ⟨w, hw⟩ := exists_eq_padded (show 2 ≤ base.exps.length by
    rw [show base.exps.length = _ from hcomponents]
    omega) h.flat
  have hvector : base.IsVector s (padded base.components w.exps) := by
    refine ⟨?_, hw, h.base_residual, ?_, hbase⟩
    · rw [htime, h.time, hc.time, sub_zero]
    · rw [hcents]
      exact sub_beq_zero h.uncorrected hc.uncorrected
  have hspread : ∀ count, m.components ≤ count → cs.length ≤ count → count ≤ Prime.tableSize →
      spread count m.parts = (padded count (zipEntries (· + ·) w.exps cs), 1) := by
    intro count hmc hcc hcount
    have hparts := spread_of_div hcount hmc (hc.components ▸ hcc) hdiv h.residual_pos.ne'
      (by rw [h.base_residual]; exact one_ne_zero)
    have hle : base.components ≤ count := by omega
    have hpad : padded count (padded base.components w.exps) = padded count w.exps := by
      rw [padded, padded, List.append_assoc, List.replicate_append_replicate, padded,
        List.length_append, List.length_replicate, w.length_exps]
      congr 2
      omega
    rw [hparts, hvector.parts_eq, hc.parts_eq, spread_one hcount, spread_one hcount, hpad,
      combined_padded (by rw [w.length_exps]; omega) hcc]
  refine ⟨w, cs, Skeleton.ofMonzo_of_padded hvector.exps, hcommas, bounded_of_padded hvector, ?_,
    hspread⟩
  · -- the value over enough primes is within the bounds, and so is the vector without zeros
    obtain ⟨a, b, halign, -⟩ := exists_align_of_div hdiv
    obtain ⟨a', ha, -⟩ := bind_eq_ok.mp halign
    obtain ⟨hparts, hatime, hacents⟩ := parts_of_widen ha
    have hmax : spread (max m.components cs.length) m.parts = spread cs.length m.parts :=
      spread_max cs.length m.parts
    rw [hc.components, ← hmax, hspread _ (le_max_left _ _) (le_max_right _ _)
      (max_le h.components_le hcommas.length_le_tableSize)] at hparts
    have hwide : a'.IsVector s (padded (max m.components cs.length)
        (zipEntries (· + ·) w.exps cs)) := by
      refine ⟨hatime.trans h.time, congrArg Prod.fst hparts, congrArg Prod.snd hparts, ?_,
        bounded_of_widen hm ha⟩
      rw [hacents]
      exact h.uncorrected
    exact bounded_of_padded hwide

/-! ## Octaves -/

/-- The steps of a vector within the default bounds are few enough for their octave to be found
from the double nearest to a seventh of them. -/
theorem Pitch.octaveOf_of_bounded (hdefault : s.absurdExponent = ({} : Settings).absurdExponent)
    (hw : boundsFault? s { exps := w.exps } = none) (hden : w.stepspan.den = 1) {octave : Int}
    (h : octaveOf w.stepspan.num = .ok octave) : octave = w.stepspan.num / 7 + 4 := by
  have hsmall := abs_le_of_bounded hdefault hw
  have htwos := hsmall w.twos List.mem_cons_self
  have hthrees := hsmall w.threes (List.mem_cons_of_mem _ List.mem_cons_self)
  rw [abs_le] at htwos hthrees
  have hnum := Skeleton.exists_steps hden
  have hlow : ((-2 ^ 50 : Int) : ℚ) < (w.stepspan.num : Int) := by
    rw [← hnum, Skeleton.stepspan]
    push_cast
    linarith
  have hhigh : ((w.stepspan.num : Int) : ℚ) < (2 ^ 50 : Int) := by
    rw [← hnum, Skeleton.stepspan]
    push_cast
    linarith
  obtain ⟨x, hx, h⟩ := bind_eq_ok.mp h
  obtain rfl := Except.ok.inj h
  have hround : ofRat? (mkRat w.stepspan.num 7) = some x := by
    rw [Number.toDouble, Number.toDouble.ofRat] at hx
    split at hx
    · next y hy =>
      cases hx
      exact hy
    · cases hx
  rw [floorInt_of_ofRat?_seventh (Int.cast_lt.mp hlow) (Int.cast_lt.mp hhigh) hround]

theorem Pitch.skeleton_of_ofSkeleton_of_bounded {name : Pitch}
    (hdefault : s.absurdExponent = ({} : Settings).absurdExponent)
    (hw : boundsFault? s { exps := w.exps } = none) (h : ofSkeleton w = .ok (some name)) :
    name.skeleton = .ok w := by
  refine skeleton_of_ofSkeleton (fun octave hoctave => ?_) h
  refine octaveOf_of_bounded hdefault hw ?_ hoctave
  by_contra hden
  rw [ofSkeleton, if_pos hden] at h
  cases h

end Intonation
