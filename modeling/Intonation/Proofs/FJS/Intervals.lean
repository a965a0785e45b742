import Intonation.Proofs.FJS.Vectors

/-!
# Interval names at every degree

A vector of twos and threes is named after the degree that its steps come to when it is read
upwards, and after its offset from the center of that degree. Naming and taking the value of a name
invert each other, but for names of descending unisons and names too far from their center, which
no vector is given.

## Main definitions

* `Skeleton.ascending`, `Skeleton.degree`, `Skeleton.offCenter`: what a vector is named after

## Main statements

* `Quality.ofOffset?_eq_none_iff`: the offsets that no quality has
* `Pythagorean.ofSkeleton?_eq_none_iff`: the vectors without names
* `Pythagorean.make_of_ofSkeleton?`: the names of vectors are well-formed
* `Pythagorean.ofMonzo_inverts_toMonzo`: names and values invert each other
-/

namespace Intonation

/-! ## Qualities -/

namespace Quality

/-- A quality is read back from its letters. -/
theorem ofText?_text (q : Quality) : ofText? q.text = some q := by
  cases q with
  | augmented extra => simp [text, ofText?, List.replicate_succ]
  | diminished extra => simp [text, ofText?, List.replicate_succ]
  | _ => rfl

theorem isAltered_altered (apotomes : ℚ) : (altered apotomes).isAltered := by
  unfold altered
  split <;> rfl

/-- The quality with an offset fits the degrees whose center the offset is counted from. -/
theorem fits_of_ofOffset? {perfectBase : Bool} {x : ℚ} {q : Quality}
    (h : ofOffset? perfectBase x = some q) :
    q.isAltered || perfectBase == decide (q = .perfect) := by
  have haltered : ∀ y : ℚ, altered y = q → q.isAltered := by
    rintro y rfl
    exact isAltered_altered y
  unfold ofOffset? at h
  cases perfectBase with
  | true =>
    rw [if_pos rfl] at h
    split at h
    · cases h
    · split at h
      · cases h
        rfl
      · rw [haltered _ (Option.some.inj h), Bool.true_or]
  | false =>
    rw [if_neg Bool.false_ne_true] at h
    split at h
    · cases h
      rfl
    · split at h
      · cases h
        rfl
      · split at h
        · cases h
          rfl
        · rw [haltered _ (Option.some.inj (Option.ite_none_right_eq_some.mp h).2), Bool.true_or]

theorem ofOffset?_eq_none_iff {perfectBase : Bool} {x : ℚ} : ofOffset? perfectBase x = none ↔
    ∀ q : Quality, q.isAltered || perfectBase == decide (q = .perfect) →
      q.offset perfectBase ≠ x := by
  constructor
  · rintro hnone q hq rfl
    rw [ofOffset?_offset hq] at hnone
    cases hnone
  · intro h
    by_contra hsome
    obtain ⟨q, hq⟩ := Option.ne_none_iff_exists'.mp hsome
    exact h q (fits_of_ofOffset? hq) (offset_of_ofOffset? hq)

end Quality

/-! ## Vectors without names -/

namespace Skeleton

/-- A vector read upwards. -/
def ascending (v : Skeleton) : Skeleton := if v.stepspan < 0 then v.neg else v

/-- The degree that the steps of a vector read upwards come to. -/
def degree (v : Skeleton) : Int := v.stepspan.num.natAbs + 1

/-- The offset of a vector read upwards from the center of its degree, in apotomes. -/
def offCenter (v : Skeleton) : ℚ :=
  (v.ascending.threes - (Pythagorean.center (Pythagorean.baseOf v.degree)).threes) / 7

end Skeleton

namespace Pythagorean

theorem baseOf_succ (steps : Nat) : baseOf (steps + 1) = steps % 7 + 1 := by
  rw [baseOf]
  omega

/-- A vector read upwards has no name when it is too far from the center of its degree, or when no
quality has its offset. -/
theorem ofUpwards?_eq_none_iff {v : Skeleton} {steps : Nat} {degree : Int} {x : ℚ}
    (hdegree : degree = steps + 1) (hx : x = (v.threes - (center (baseOf degree)).threes) / 7) :
    ofUpwards? v steps = none ↔
      100 < |x| ∨ ∀ q, allows degree q → offset ⟨q, degree⟩ ≠ x := by
  have hbase : baseOf degree = steps % 7 + 1 := hdegree ▸ baseOf_succ steps
  unfold ofUpwards?
  simp only
  rw [← hbase, ← hx, rat_abs_eq]
  by_cases hfar : Skeleton.maxOffset < |x|
  · rw [if_pos hfar]
    exact iff_of_true rfl (.inl hfar)
  · rw [if_neg hfar, Option.map_eq_none_iff, or_iff_right (show ¬ 100 < |x| from hfar)]
    exact Quality.ofOffset?_eq_none_iff

/-- A vector has no name when it does not span whole steps, when it is too far from the center of
its degree, or when no quality has its offset. -/
theorem ofSkeleton?_eq_none_iff {v : Skeleton} : ofSkeleton? v = none ↔
    v.stepspan.den ≠ 1 ∨ 100 < |v.offCenter| ∨
      ∀ q, allows v.degree q → offset ⟨q, v.degree⟩ ≠ v.offCenter := by
  unfold ofSkeleton?
  by_cases hden : v.stepspan.den = 1
  · have hname : ofUpwards? v.ascending v.stepspan.num.natAbs = none ↔ 100 < |v.offCenter| ∨
        ∀ q, allows v.degree q → offset ⟨q, v.degree⟩ ≠ v.offCenter :=
      ofUpwards?_eq_none_iff rfl rfl
    rw [if_neg (not_not.mpr hden), or_iff_right (not_not.mpr hden), ← hname, Skeleton.ascending]
    by_cases hneg : v.stepspan < 0
    · rw [if_pos hneg, if_pos hneg, Option.map_eq_none_iff]
    · rw [if_neg hneg, if_neg hneg]
  · rw [if_pos hden]
    exact iff_of_true rfl (.inl hden)

/-! ## Well-formed names -/

theorem make_text {p : Pythagorean} (h0 : p.degree ≠ 0) (h : allows p.degree p.quality) :
    make p.quality.text p.degree = .ok p := by
  rw [make, if_neg h0, Quality.ofText?_text]
  exact if_pos h

theorem of_make {quality : String} {degree : Int} {p : Pythagorean}
    (h : make quality degree = .ok p) :
    p.degree = degree ∧ p.degree ≠ 0 ∧ allows p.degree p.quality := by
  unfold make at h
  split at h
  · cases h
  · next h0 =>
    split at h
    · cases h
    · split at h
      · next hallows =>
        cases h
        exact ⟨rfl, h0, hallows⟩
      · cases h

theorem of_ofUpwards? {v : Skeleton} {steps : Nat} {p : Pythagorean}
    (h : ofUpwards? v steps = some p) : p.degree = steps + 1 ∧ allows p.degree p.quality := by
  unfold ofUpwards? at h
  simp only at h
  split at h
  · cases h
  · obtain ⟨q, hq, rfl⟩ := Option.map_eq_some_iff.mp h
    have hdegree : ((steps % 7 + 1 : Nat) : Int) + 7 * (steps / 7 : Nat) = steps + 1 := by omega
    refine ⟨hdegree, ?_⟩
    simp only [allows, hdegree, baseOf_succ]
    exact Quality.fits_of_ofOffset? hq

/-- The name of a vector is well-formed. -/
theorem make_of_ofSkeleton? {v : Skeleton} {p : Pythagorean} (h : ofSkeleton? v = some p) :
    make p.quality.text p.degree = .ok p := by
  unfold ofSkeleton? at h
  split at h
  · cases h
  · split at h
    · obtain ⟨q, hq, rfl⟩ := Option.map_eq_some_iff.mp h
      obtain ⟨hdegree, hallows⟩ := of_ofUpwards? hq
      refine make_text (show -q.degree ≠ 0 by omega) ?_
      simpa [allows, baseOf] using hallows
    · obtain ⟨hdegree, hallows⟩ := of_ofUpwards? h
      exact make_text (by omega) hallows

/-! ## Names and values -/

variable {s : Settings} {m : Monzo} {es : List ℚ} {p : Pythagorean}

theorem ofMonzo_of_isVector (hm : m.IsVector s es) :
    ofMonzo m = .ok (ofSkeleton? ⟨es.getD 0 0, es.getD 1 0⟩) := by
  rw [ofMonzo, Skeleton.ofMonzo_of_isVector hm]
  rfl

/-- The value of the name of a vector is strictly equal to it, unless the vector is longer than the
prime table. -/
theorem exists_toMonzo_of_ofSkeleton? (hm : m.IsVector s es) (hflat : ∀ e ∈ es.drop 2, e = 0)
    (h : ofSkeleton? ⟨es.getD 0 0, es.getD 1 0⟩ = some p) : ∃ n, p.toMonzo s = .ok n ∧
      n.strictEquals s m =
        if m.components ≤ Prime.tableSize then .ok true else .error .tableExhausted := by
  have hskeleton := skeleton_of_ofSkeleton? h
  have hvector := Skeleton.isVector_exps_of_flat hm hflat
  rw [← hskeleton] at hvector
  obtain ⟨n, hn⟩ := exists_toMonzo hvector
  exact ⟨n, hn, Skeleton.strictEquals_of_flat hm hflat (hskeleton ▸ isVector_of_toMonzo hn)⟩

/-- A name is given to its value, when that is within the bounds. -/
theorem IsNormal.exists_ofMonzo (hp : p.IsNormal)
    (hbounded : Monzo.boundsFault? s { exps := p.skeleton.exps } = none) :
    ∃ n, p.toMonzo s = .ok n ∧ ofMonzo n = .ok (some p) := by
  have hvector : Monzo.IsVector s { exps := p.skeleton.exps } p.skeleton.exps :=
    ⟨rfl, rfl, rfl, Double.zero_beq_zero, hbounded⟩
  obtain ⟨n, hn⟩ := exists_toMonzo hvector
  refine ⟨n, hn, ?_⟩
  rw [ofMonzo_of_isVector (isVector_of_toMonzo hn)]
  exact congrArg Except.ok hp.ofSkeleton?_skeleton

/-- A vector of rational exponents of two and three has a name exactly when it spans whole steps
and a quality has its offset, of at most a hundred apotomes, from the center of its degree. The
name is well-formed, and its value is strictly equal to the vector; only vectors that are longer
than the prime table cannot be compared. In turn, the value of a well-formed name with such an
offset is given the name, unless the name is that of a descending unison or the value is not within
the bounds. -/
theorem ofMonzo_inverts_toMonzo (s : Settings) :
    (∀ (m : Monzo) (es : List ℚ), m.IsVector s es → (∀ e ∈ es.drop 2, e = 0) →
      let v : Skeleton := ⟨es.getD 0 0, es.getD 1 0⟩
      ∃ name, ofMonzo m = .ok name ∧
        (name = none ↔ v.stepspan.den ≠ 1 ∨ 100 < |v.offCenter| ∨
          ∀ q, allows v.degree q → offset ⟨q, v.degree⟩ ≠ v.offCenter) ∧
        ∀ p, name = some p → make p.quality.text p.degree = .ok p ∧ ∃ n, p.toMonzo s = .ok n ∧
          n.strictEquals s m =
            if m.components ≤ Prime.tableSize then .ok true else .error .tableExhausted) ∧
    ∀ quality degree p, make quality degree = .ok p → degree ≠ -1 → |p.offset| ≤ 100 →
      Monzo.boundsFault? s { exps := p.skeleton.exps } = none →
      ∃ n, p.toMonzo s = .ok n ∧ ofMonzo n = .ok (some p) := by
  constructor
  · intro m es hm hflat v
    refine ⟨ofSkeleton? v, ofMonzo_of_isVector hm, ofSkeleton?_eq_none_iff, fun p hp => ?_⟩
    exact ⟨make_of_ofSkeleton? hp, exists_toMonzo_of_ofSkeleton? hm hflat hp⟩
  · intro quality degree p hp h1 hnear hbounded
    obtain ⟨rfl, h0, hallows⟩ := of_make hp
    exact IsNormal.exists_ofMonzo ⟨h0, h1, hallows, rat_abs_eq p.offset ▸ hnear⟩ hbounded

/-- A doubly augmented fourth downwards. -/
theorem ofMonzo_inverts_toMonzo_fourth :
    let s : Settings := {}
    let m : Monzo := { exps := [20, -13, 0] }
    let p : Pythagorean := ⟨.augmented 1, -4⟩
    m.IsVector s [20, -13, 0] ∧ (∀ e ∈ [(20 : ℚ), -13, 0].drop 2, e = 0) ∧
      ofMonzo m = .ok (some p) ∧ make "aa" (-4) = .ok p ∧ (-4 : Int) ≠ -1 ∧ |p.offset| ≤ 100 ∧
      Monzo.boundsFault? s { exps := p.skeleton.exps } = none ∧
      (∃ n, p.toMonzo s = .ok n ∧ n.strictEquals s m = .ok true) ∧
      ∃ n, p.toMonzo s = .ok n ∧ ofMonzo n = .ok (some p) := by
  intro s m p
  have hm : m.IsVector s [20, -13, 0] :=
    ⟨rfl, rfl, rfl, Double.zero_beq_zero, by decide +kernel⟩
  have hflat : ∀ e ∈ [(20 : ℚ), -13, 0].drop 2, e = 0 := by simp
  have hname : ofMonzo m = .ok (some p) := by decide +kernel
  have hmake : make "aa" (-4) = .ok p := by decide +kernel
  have hnear : |p.offset| ≤ 100 := by
    rw [show p.offset = 2 by decide +kernel]
    norm_num
  have hbounded : Monzo.boundsFault? s { exps := p.skeleton.exps } = none := by decide +kernel
  obtain ⟨hvectors, hnames⟩ := ofMonzo_inverts_toMonzo s
  obtain ⟨name, hname', -, hvalue⟩ := hvectors m _ hm hflat
  rw [hname, Except.ok.injEq] at hname'
  obtain ⟨-, n, hn, hstrict⟩ := hvalue p hname'.symm
  exact ⟨hm, hflat, hname, hmake, by decide, hnear, hbounded, ⟨n, hn, hstrict.trans (by decide)⟩,
    hnames "aa" (-4) p hmake (by decide) hnear hbounded⟩

/-- One over more components than the table has primes is named a unison, which cannot be compared
with it. -/
theorem ofMonzo_incomparable :
    let s : Settings := {}
    let m : Monzo := { exps := List.replicate 1001 0 }
    let p : Pythagorean := ⟨.perfect, 1⟩
    m.IsVector s (List.replicate 1001 0) ∧ ofMonzo m = .ok (some p) ∧
      ∃ n, p.toMonzo s = .ok n ∧ n.strictEquals s m = .error .tableExhausted := by
  intro s m p
  have hm : m.IsVector s (List.replicate 1001 0) :=
    (Monzo.unity_spec (Monzo.unity_eq (s := s) (by decide) 1001)).2.2.2.2
  have hflat : ∀ e ∈ (List.replicate 1001 (0 : ℚ)).drop 2, e = 0 := fun e he =>
    List.eq_of_mem_replicate (List.mem_of_mem_drop he)
  have hname : ofSkeleton? ⟨(List.replicate 1001 0).getD 0 0, (List.replicate 1001 0).getD 1 0⟩ =
      some p := by decide +kernel
  obtain ⟨n, hn, hstrict⟩ := exists_toMonzo_of_ofSkeleton? hm hflat hname
  have hlong : ¬ m.components ≤ Prime.tableSize := by
    rw [hm.components, List.length_replicate]
    decide
  rw [if_neg hlong] at hstrict
  exact ⟨hm, (ofMonzo_of_isVector hm).trans (congrArg Except.ok hname), n, hn, hstrict⟩

end Pythagorean

end Intonation
