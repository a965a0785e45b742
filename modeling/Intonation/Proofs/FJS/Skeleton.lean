import Intonation.FJS.Skeleton
import Intonation.Proofs.Monzo.Vector

/-!
# Names and their vectors

The offset of a name is read back from the vector that it stands for, and the other way round:
naming a vector and taking the vector of a name undo each other wherever a name exists. The one
exception is the descending unison, which is the ascending one written differently.

## Main definitions

* `Pythagorean.IsNormal`: names that a vector has

## Main statements

* `Pythagorean.skeleton_of_ofSkeleton?`: the vector of the name of a vector
* `Pythagorean.ofSkeleton?_skeleton`: the name of the vector of a name
* `Pitch.offset_of_accidentals?`: the accidentals of an offset add up to it
* `Pythagorean.isVector_of_toMonzo`, `Pythagorean.exists_toMonzo`: the value of an interval name
* `Pitch.skeleton_shift_of_ofSkeleton`, `Pitch.skeleton_of_ofSkeleton`: the vector of the note name
  of a vector
-/

namespace Intonation

theorem exists_intCast_of_den {x : ℚ} (h : x.den = 1) : ∃ k : Int, x = k :=
  ⟨x.num, ((Rat.den_eq_one_iff x).mp h).symm⟩

/-- A whole number above minus one half, other than zero, is positive. -/
theorem pos_of_add_half {k : Int} (h : (0 : ℚ) < k + 1 / 2) (h0 : (k : ℚ) ≠ 0) : 0 < k := by
  have hge : -1 < k := by
    have : (-1 : ℚ) < k := by linarith
    exact_mod_cast this
  have hne : k ≠ 0 := by exact_mod_cast h0
  omega

/-! ## Qualities -/

namespace Quality

/-- The step between the innermost altered qualities and the center. -/
def margin (perfectBase : Bool) : ℚ := if perfectBase then 0 else 1 / 2

theorem offset_altered (perfectBase : Bool) {k : Int} (h : k ≠ 0) :
    (altered k).offset perfectBase =
      if 0 < k then k + margin perfectBase else k - margin perfectBase := by
  unfold altered
  have hnat : k.natAbs - 1 + 1 = k.natAbs := by omega
  by_cases hk : 0 < k
  · have hcast : ((k.natAbs : Nat) : ℚ) = k := by
      rw [Nat.cast_natAbs, abs_of_pos hk]
    rw [if_pos (Int.cast_pos.mpr hk), if_pos hk, Rat.num_intCast, offset, hnat, hcast, margin]
  · have hcast : ((k.natAbs : Nat) : ℚ) = -k := by
      rw [Nat.cast_natAbs, abs_of_neg (by omega), Int.cast_neg]
    rw [if_neg (mt Int.cast_pos.mp hk), if_neg hk, Rat.num_intCast, offset, hnat, hcast, margin]
    ring

theorem offset_of_ofOffset? {perfectBase : Bool} {x : ℚ} {q : Quality}
    (h : ofOffset? perfectBase x = some q) : q.offset perfectBase = x := by
  unfold ofOffset? at h
  cases perfectBase with
  | true =>
    rw [if_pos rfl] at h
    split at h
    · cases h
    · next hden =>
      obtain ⟨k, rfl⟩ := exists_intCast_of_den (not_not.mp hden)
      split at h
      · next h0 =>
        cases h
        exact h0.symm
      · next h0 =>
        cases h
        rw [offset_altered true (by simpa using h0)]
        simp [margin]
  | false =>
    rw [if_neg (by simp)] at h
    by_cases h0 : x = 0
    · rw [if_pos h0] at h
      cases h
      exact h0.symm
    by_cases h1 : x = 1 / 2
    · rw [if_neg h0, if_pos h1] at h
      cases h
      exact h1.symm
    by_cases h2 : x = -1 / 2
    · rw [if_neg h0, if_neg h1, if_pos h2] at h
      cases h
      exact h2.symm
    -- beyond the three middle qualities, what is left past the margin is a whole number
    rw [if_neg h0, if_neg h1, if_neg h2] at h
    simp only [Option.ite_none_right_eq_some, Option.some.injEq] at h
    obtain ⟨hden, rfl⟩ := h
    obtain ⟨k, hk⟩ := exists_intCast_of_den hden
    rw [hk]
    by_cases hx : 0 < x
    · rw [if_pos hx] at hk
      have hpos : 0 < k := pos_of_add_half (by linarith) fun h0 => h1 (by linarith)
      rw [offset_altered false hpos.ne', if_pos hpos, margin, if_neg (by simp)]
      linarith
    · rw [if_neg hx] at hk
      have hx' : x < 0 := lt_of_le_of_ne (not_lt.mp hx) h0
      have hneg : 0 < -k := by
        refine pos_of_add_half ?_ fun hk0 => h2 ?_
        · push_cast
          linarith
        · push_cast at hk0
          linarith
      rw [offset_altered false (by omega), if_neg (by omega), margin, if_neg (by simp)]
      linarith

theorem altered_natCast (extra : Nat) :
    altered ((extra + 1 : Nat) : ℚ) = augmented extra ∧
      altered (-((extra + 1 : Nat) : ℚ)) = diminished extra := by
  unfold altered
  have hpos : (0 : ℚ) < (extra + 1 : Nat) := by positivity
  rw [if_pos hpos, if_neg (by linarith), Rat.num_natCast, Rat.num_neg_eq_neg_num,
    Rat.num_natCast, Int.natAbs_neg, Int.natAbs_natCast, Nat.add_sub_cancel]
  exact ⟨rfl, rfl⟩

/-- A quality that fits its degree is read back from its offset. -/
theorem ofOffset?_offset {perfectBase : Bool} {q : Quality}
    (h : q.isAltered || perfectBase == decide (q = .perfect)) :
    ofOffset? perfectBase (q.offset perfectBase) = some q := by
  cases perfectBase with
  | true =>
    cases q with
    | perfect => rfl
    | major => simp [isAltered] at h
    | minor => simp [isAltered] at h
    | neutral => simp [isAltered] at h
    | augmented extra =>
      have hpos : ((extra + 1 : Nat) : ℚ) ≠ 0 := by positivity
      simp only [ofOffset?, offset, if_true, add_zero]
      rw [if_neg (by rw [Rat.den_natCast]; omega), if_neg hpos, (altered_natCast extra).1]
    | diminished extra =>
      have hpos : -((extra + 1 : Nat) : ℚ) ≠ 0 := neg_ne_zero.mpr (by positivity)
      simp only [ofOffset?, offset, if_true, add_zero]
      rw [if_neg (by rw [Rat.den_neg_eq_den, Rat.den_natCast]; omega), if_neg hpos,
        (altered_natCast extra).2]
  | false =>
    cases q with
    | perfect => simp [isAltered] at h
    | major => norm_num [ofOffset?, offset]
    | minor => norm_num [ofOffset?, offset]
    | neutral => rfl
    | augmented extra =>
      have hpos : (0 : ℚ) < (extra + 1 : Nat) := by positivity
      simp only [ofOffset?, offset, Bool.false_eq_true, if_false]
      generalize hx : ((extra + 1 : Nat) : ℚ) = x at hpos
      rw [if_neg (by linarith), if_neg (by linarith), if_neg (by linarith),
        if_pos (by linarith : 0 < x + 1 / 2), add_sub_cancel_right, ← hx, Rat.den_natCast,
        if_pos rfl, (altered_natCast extra).1]
    | diminished extra =>
      have hpos : (0 : ℚ) < (extra + 1 : Nat) := by positivity
      simp only [ofOffset?, offset, Bool.false_eq_true, if_false]
      generalize hx : ((extra + 1 : Nat) : ℚ) = x at hpos
      have hbeyond : -(x + 1 / 2) + 1 / 2 = -x := by ring
      rw [if_neg (by linarith), if_neg (by linarith), if_neg (by linarith),
        if_neg (by linarith : ¬ 0 < -(x + 1 / 2)), hbeyond, ← hx, Rat.den_neg_eq_den,
        Rat.den_natCast, if_pos rfl, (altered_natCast extra).2]

end Quality

/-! ## Vectors -/

namespace Skeleton

theorem eq_of_stepspan {v w : Skeleton} (hsteps : v.stepspan = w.stepspan)
    (hthrees : v.threes = w.threes) : v = w := by
  obtain ⟨a, b⟩ := v
  obtain ⟨c, d⟩ := w
  simp only [stepspan] at hsteps hthrees
  rw [mk.injEq]
  constructor <;> linarith

theorem stepspan_shift (v : Skeleton) (octaves apotomes : ℚ) :
    (v.shift octaves apotomes).stepspan = v.stepspan + 7 * octaves := by
  simp only [shift, stepspan]
  ring

theorem shift_zero (v : Skeleton) : v.shift 0 0 = v := by simp [shift]

theorem stepspan_neg (v : Skeleton) : v.neg.stepspan = -v.stepspan := by
  simp only [neg, stepspan]
  ring

theorem neg_neg (v : Skeleton) : v.neg.neg = v := by simp [neg]

/-- The exponents of a vector of twos and threes. -/
def exps (v : Skeleton) : List ℚ := [v.twos, v.threes]

theorem map_neg_exps (v : Skeleton) : (v.exps.map fun e => -e) = v.neg.exps := rfl

variable {s : Settings} {m n : Monzo}

theorem isVector_of_toMonzo {v : Skeleton} (h : v.toMonzo s = .ok m) : m.IsVector s v.exps :=
  .of_checked h rfl rfl rfl Double.zero_beq_zero

theorem toMonzo_of_isVector {v : Skeleton} (h : m.IsVector s v.exps) :
    v.toMonzo s = .ok { exps := v.exps } := h.checked_eq.1

theorem exists_steps {v : Skeleton} (h : v.stepspan.den = 1) :
    v.stepspan = v.stepspan.num := ((Rat.den_eq_one_iff _).mp h).symm

end Skeleton

/-! ## Interval names -/

namespace Pythagorean

theorem stepspan_center {steps : Nat} (h : steps < 7) : (center (steps + 1)).stepspan = steps := by
  interval_cases steps <;> norm_num [center, centers, Skeleton.stepspan]

theorem base_le (p : Pythagorean) : p.base - 1 < 7 ∧ p.base - 1 + 1 = p.base := by
  unfold base baseOf
  omega

/-- A degree counts the steps of its vector from one. -/
theorem stepspan_upwards (p : Pythagorean) :
    p.upwards.stepspan = (p.degree.natAbs - 1 : Nat) := by
  obtain ⟨hlt, hbase⟩ := p.base_le
  rw [upwards, Skeleton.stepspan_shift, ← hbase, stepspan_center hlt]
  have h1 : p.base - 1 + 7 * p.octaves = p.degree.natAbs - 1 := by
    unfold base baseOf octaves
    omega
  rw [← h1]
  push_cast
  ring

theorem threes_upwards (p : Pythagorean) :
    p.upwards.threes = (center p.base).threes + 7 * p.offset := rfl

/-- The vector of the name of a vector that spans a number of steps upwards. -/
theorem upwards_of_ofUpwards? {v : Skeleton} {steps : Nat} {p : Pythagorean}
    (hsteps : v.stepspan = steps) (h : ofUpwards? v steps = some p) :
    p.upwards = v ∧ p.degree = steps + 1 := by
  unfold ofUpwards? at h
  simp only at h
  split at h
  · cases h
  · obtain ⟨q, hq, rfl⟩ := Option.map_eq_some_iff.mp h
    have hdegree : ((steps % 7 + 1 : Nat) : Int) + 7 * ((steps / 7 : Nat) : Int) = steps + 1 := by
      omega
    have hbase : baseOf ((steps % 7 + 1 : Nat) + 7 * (steps / 7 : Nat)) = steps % 7 + 1 := by
      rw [hdegree, baseOf]
      omega
    refine ⟨Skeleton.eq_of_stepspan ?_ ?_, hdegree⟩
    · rw [stepspan_upwards, hsteps, hdegree]
      congr 1
    · rw [threes_upwards, offset, base, hbase, Quality.offset_of_ofOffset? hq]
      ring

/-- The vector of the name of a vector. -/
theorem skeleton_of_ofSkeleton? {v : Skeleton} {p : Pythagorean} (h : ofSkeleton? v = some p) :
    p.skeleton = v := by
  unfold ofSkeleton? at h
  split at h
  · cases h
  · next hden =>
    have hnum := Skeleton.exists_steps (not_not.mp hden)
    split at h
    · next hneg =>
      obtain ⟨q, hq, rfl⟩ := Option.map_eq_some_iff.mp h
      have hlt : v.stepspan.num < 0 := Rat.num_neg.mpr hneg
      have hsteps : v.neg.stepspan = (v.stepspan.num.natAbs : Nat) := by
        rw [Skeleton.stepspan_neg, hnum, Rat.num_intCast, Nat.cast_natAbs, abs_of_neg hlt,
          Int.cast_neg]
      obtain ⟨hup, hdegree⟩ := upwards_of_ofUpwards? hsteps hq
      have hup' : upwards { q with degree := -q.degree } = q.upwards := by
        simp [upwards, offset, base, baseOf, octaves]
      rw [skeleton, if_pos (by show -q.degree < 0; omega), hup', hup, Skeleton.neg_neg]
    · next hnneg =>
      have hge : 0 ≤ v.stepspan.num := Rat.num_nonneg.mpr (not_lt.mp hnneg)
      have hsteps : v.stepspan = (v.stepspan.num.natAbs : Nat) := by
        rw [Nat.cast_natAbs, abs_of_nonneg hge]
        exact hnum
      obtain ⟨hup, hdegree⟩ := upwards_of_ofUpwards? hsteps h
      rw [skeleton, if_neg (by omega), hup]

/-- Names that a vector has: all but descending unisons, with offsets that are not too large. -/
structure IsNormal (p : Pythagorean) : Prop where
  degree_ne_zero : p.degree ≠ 0
  degree_ne_neg_one : p.degree ≠ -1
  allowed : allows p.degree p.quality
  near : p.offset.abs ≤ Skeleton.maxOffset

namespace IsNormal

variable {p : Pythagorean}

theorem ofUpwards? (h : p.IsNormal) :
    Pythagorean.ofUpwards? p.upwards (p.degree.natAbs - 1) =
      some { p with degree := p.degree.natAbs } := by
  have h0 := h.degree_ne_zero
  have hbase : (p.degree.natAbs - 1) % 7 + 1 = p.base := rfl
  have hoffset : (p.upwards.threes - (center p.base).threes) / 7 = p.offset := by
    rw [threes_upwards]
    ring
  unfold Pythagorean.ofUpwards?
  simp only [hbase, hoffset]
  have hquality : Quality.ofOffset? (isPerfectBase p.base) p.offset = some p.quality :=
    Quality.ofOffset?_offset h.allowed
  rw [if_neg (not_lt.mpr h.near), hquality, Option.map_some]
  congr 2
  unfold base baseOf
  omega

/-- The name of the vector of a name. -/
theorem ofSkeleton?_skeleton (h : p.IsNormal) : ofSkeleton? p.skeleton = some p := by
  have h0 := h.degree_ne_zero
  have h1 := h.degree_ne_neg_one
  have hsteps := stepspan_upwards p
  have hup := h.ofUpwards?
  unfold skeleton ofSkeleton?
  by_cases hneg : p.degree < 0
  · have hspan : p.upwards.neg.stepspan = ((-(p.degree.natAbs - 1 : Nat) : Int) : ℚ) := by
      rw [Skeleton.stepspan_neg, hsteps]
      push_cast
      rfl
    have hlt : p.upwards.neg.stepspan < 0 := by
      rw [hspan, Int.cast_lt_zero]
      omega
    have hdegree : -(p.degree.natAbs : Int) = p.degree := by omega
    rw [if_pos hneg, if_neg (by rw [hspan, Rat.den_intCast]; simp), if_pos hlt, hspan,
      Rat.num_intCast, Int.natAbs_neg, Int.natAbs_natCast, Skeleton.neg_neg, hup]
    simp only [Option.map_some, hdegree]
  · have hdegree : (p.degree.natAbs : Int) = p.degree := by omega
    rw [if_neg hneg, if_neg (by rw [hsteps, Rat.den_natCast]; simp),
      if_neg (by rw [hsteps]; exact not_lt.mpr (Nat.cast_nonneg _)), hsteps, Rat.num_natCast,
      Int.natAbs_natCast, hup, hdegree]

end IsNormal

variable {s : Settings} {m : Monzo} {p : Pythagorean}

/-- The value of an interval name is its vector. -/
theorem isVector_of_toMonzo (h : p.toMonzo s = .ok m) : m.IsVector s p.skeleton.exps := by
  obtain ⟨up, hup, h⟩ := bind_eq_ok.mp h
  have hvector := Skeleton.isVector_of_toMonzo hup
  rw [skeleton]
  split at h
  · next hneg =>
    rw [if_pos hneg, ← Skeleton.map_neg_exps]
    refine .of_checked h ?_ ?_ ?_ (Double.neg_beq_zero hvector.uncorrected)
    · show -up.time = 0
      rw [hvector.time, neg_zero]
    · show up.exps.map _ = _
      rw [hvector.exps]
    · show up.residual⁻¹ = 1
      rw [hvector.residual, inv_one]
  · next hneg =>
    cases h
    rwa [if_neg hneg]

/-- A name whose vector is within the bounds has a value. -/
theorem exists_toMonzo (h : m.IsVector s p.skeleton.exps) : ∃ n, p.toMonzo s = .ok n := by
  rw [skeleton] at h
  by_cases hneg : p.degree < 0
  · rw [if_pos hneg] at h
    have hup := h.reversed
    rw [Skeleton.map_neg_exps, Skeleton.neg_neg] at hup
    have hdown : Monzo.checked s (Monzo.reciprocal { exps := p.upwards.exps }) =
        .ok (Monzo.reciprocal { exps := p.upwards.exps }) := by
      refine Monzo.checked_eq_ok_iff.mpr ⟨Monzo.bounded_congr h.exps ?_ ?_ h.bounded, rfl⟩
      · rw [h.residual]
        exact inv_one.symm
      · exact .of_beq_zero h.uncorrected (Double.neg_beq_zero Double.zero_beq_zero)
    exact ⟨_, bind_eq_ok.mpr
      ⟨_, Skeleton.toMonzo_of_isVector hup, (if_pos hneg).trans hdown⟩⟩
  · rw [if_neg hneg] at h
    exact ⟨_, bind_eq_ok.mpr ⟨_, Skeleton.toMonzo_of_isVector h, if_neg hneg⟩⟩

end Pythagorean

/-! ## Note names -/

namespace Pitch

@[simp] theorem offset_nil : offset [] = 0 := rfl

@[simp] theorem offset_cons (a : Accidental) (as : List Accidental) :
    offset (a :: as) = a.apotomes + offset as := rfl

@[simp] theorem offset_append (as bs : List Accidental) :
    offset (as ++ bs) = offset as + offset bs := by
  induction as with
  | nil => simp
  | cons a as ih => rw [List.cons_append, offset_cons, offset_cons, ih, add_assoc]

@[simp] theorem offset_replicate (count : Nat) (a : Accidental) :
    offset (List.replicate count a) = count * a.apotomes := by
  induction count with
  | zero => simp
  | succ count ih =>
    rw [List.replicate_succ, offset_cons, ih]
    push_cast
    ring

/-- The direction in which accidentals alter a note. -/
def direction (negative : Bool) : ℚ := if negative then -1 else 1

theorem offset_of_smallAccidentals? {negative : Bool} {size : ℚ} {as : List Accidental}
    (h : smallAccidentals? negative size = some as) : offset as = direction negative * size := by
  unfold smallAccidentals? at h
  split at h
  · next h0 =>
    cases h
    rw [offset_nil, h0, mul_zero]
  · split at h
    · next h1 =>
      cases h
      cases negative <;> simp [direction, Accidental.apotomes, h1]
    · simp only [Option.ite_none_right_eq_some, Option.some.injEq] at h
      obtain ⟨h2, rfl⟩ := h
      cases negative <;> norm_num [direction, Accidental.apotomes, h2]

/-- The accidentals of an offset add up to it. -/
theorem offset_of_accidentals? {x : ℚ} {as : List Accidental} (h : accidentals? x = some as) :
    offset as = x := by
  unfold accidentals? at h
  simp only at h
  obtain ⟨inner, hinner, rfl⟩ := Option.map_eq_some_iff.mp h
  have hsize := offset_of_smallAccidentals? hinner
  have hdirection : direction (decide (x < 0)) * x.abs = x := by
    rw [rat_abs_eq, direction]
    by_cases hx : x < 0
    · simp [hx, abs_of_neg hx]
    · simp [hx, abs_of_nonneg (not_lt.mp hx)]
  rw [offset_append, offset_append, hsize]
  generalize doubles x.abs = pairs at *
  by_cases hx : x < 0 <;> by_cases hrest : 1 < x.abs - 2 * pairs <;>
    simp [hx, hrest, direction, Accidental.apotomes] at hdirection ⊢ <;> linarith

/-- The nominals with the vectors that span the steps from C. -/
theorem naturals_getD {steps : Nat} (h : steps < 7) : ∃ nominal natural,
    naturals.getD steps ("C", ⟨0, 0⟩) = (nominal, natural) ∧
      naturals.lookup nominal = some natural ∧ natural.stepspan = steps := by
  interval_cases steps <;>
    exact ⟨_, _, rfl, by decide, by norm_num [Skeleton.stepspan]⟩

/-- The vector of the note name of a vector, which misses it by the octaves that the double nearest
to a seventh of its steps is off. -/
theorem skeleton_shift_of_ofSkeleton {v : Skeleton} {p : Pitch} (h : ofSkeleton v = .ok (some p)) :
    octaveOf v.stepspan.num = .ok p.octave ∧
      p.skeleton = .ok (v.shift (p.octave - (v.stepspan.num / 7 + 4) : Int) 0) := by
  unfold ofSkeleton at h
  split at h
  · cases h
  · next hden =>
    have hnum := Skeleton.exists_steps (not_not.mp hden)
    obtain ⟨octave, hread, h⟩ := bind_eq_ok.mp h
    obtain ⟨nominal, natural, hget, hlookup, hspan⟩ :=
      naturals_getD (by omega : (v.stepspan.num % 7).toNat < 7)
    rw [hget] at h
    replace h : (if Skeleton.maxOffset < ((v.threes - natural.threes) / 7).abs then .ok none
      else .ok ((accidentals? ((v.threes - natural.threes) / 7)).map fun accidentals =>
        { nominal, accidentals, octave })) = (Except.ok (some p) : Except Fault _) := h
    split at h
    · cases h
    · obtain ⟨as, has, rfl⟩ := Option.map_eq_some_iff.mp (Except.ok.inj h)
      have hoffset := offset_of_accidentals? has
      refine ⟨hread, ?_⟩
      unfold skeleton
      simp only [hlookup, hoffset]
      refine congrArg Except.ok (Skeleton.eq_of_stepspan ?_ ?_)
      · have hmod : (((v.stepspan.num % 7).toNat : Nat) : ℚ) = (v.stepspan.num % 7 : Int) := by
          rw [← Int.cast_natCast, Int.toNat_of_nonneg (by omega)]
        have hdiv : ((v.stepspan.num % 7 : Int) : ℚ) + 7 * (v.stepspan.num / 7 : Int) =
            v.stepspan.num := by
          have := Int.emod_add_mul_ediv v.stepspan.num 7
          exact_mod_cast this
        rw [Skeleton.stepspan_shift, Skeleton.stepspan_shift, hspan, hmod, hnum, Rat.num_intCast]
        push_cast
        linarith
      · simp only [Skeleton.shift]
        ring

/-- The vector of the note name of a vector, where the double nearest to a seventh of its steps
has the whole part of that seventh. -/
theorem skeleton_of_ofSkeleton {v : Skeleton} {p : Pitch}
    (hoctave : ∀ octave, octaveOf v.stepspan.num = .ok octave → octave = v.stepspan.num / 7 + 4)
    (h : ofSkeleton v = .ok (some p)) : p.skeleton = .ok v := by
  obtain ⟨hread, hskeleton⟩ := skeleton_shift_of_ofSkeleton h
  rw [hskeleton, hoctave _ hread, sub_self, Int.cast_zero, Skeleton.shift_zero]

end Pitch

end Intonation
