import Intonation.Interval.Realization
import Intonation.Proofs.FJS.Arrows
import Intonation.Proofs.FJS.Naming

/-!
# What a realized literal denotes

A value without correction that is realized as a named interval or pitch is what its literal
denotes. A named interval always lowers again; a named pitch does unless moving it to the pitch of
C4 overflows.

## Main statements

* `exists_lowerInterval`, `run_lowerPitch`: lowering what a value is put together from
* `strictEquals_of_composed`, `strictEquals_of_relative`: both lead back to the value
* `realize_sound`: realized literals denote the values that they are displayed for
-/

namespace Intonation
open Double Literal Monzo

variable {s : Settings} {m n r base plain relative c4 product : Monzo} {flavor : String}
  {memo memo' memo₁ : CommaMemo} {cs : List ℚ} {i : Inflections} {w : Skeleton} {c : Context}

/-! ## Lowering what a value is put together from -/

theorem exists_inflect (hs : s.Valid) (hmemo : memo.Sound) (h : Composed s m w i cs)
    (hn : n.IsVector s w.exps) : ∃ (r : Monzo) (memo' : CommaMemo),
      (inflect s (.exact n) i.superscripts i.subscripts).Returns memo (.exact r) memo' ∧
        r.IsVector s (zipEntries (· + ·) w.exps cs) := by
  obtain ⟨d, memo', hcommas, hd, -⟩ := h.commas.exists_inflection hs hmemo
  have hlen : w.exps.length ≤ Prime.tableSize := by
    rw [w.length_exps, Prime.tableSize]
    omega
  have hmul := combinesVectors_mul s
  obtain ⟨v, hv⟩ := hmul.exists_value hn hd hlen h.commas.length_le_tableSize h.bounded
  obtain ⟨r, rfl, hr⟩ := hmul.vector hn hd hv
  exact ⟨r, memo', Memoized.returns_bind.mpr ⟨_, memo', hcommas,
    Memoized.returns_ofExcept.mpr ⟨hv, rfl⟩⟩, hr⟩

section
variable (hs : s.Valid) (hmemo : memo.Sound) (hups : i.ups = 0) (hlifts : i.lifts = 0)
include hs hmemo hups hlifts

/-- The name and the inflections of a value always lower. -/
theorem exists_lowerInterval {name : Pythagorean} (h : Composed s m name.skeleton i cs)
    (c : Context) : ∃ (r : Monzo) (memo' : CommaMemo),
      (lowerInterval s c name i).Returns memo (.exact r) memo' ∧
        r.IsVector s (zipEntries (· + ·) name.skeleton.exps cs) := by
  obtain ⟨n, hn⟩ := Pythagorean.exists_toMonzo (isVector_exps h.skeleton_bounded)
  obtain ⟨r, memo', hinflect, hr⟩ :=
    exists_inflect hs hmemo h (Pythagorean.isVector_of_toMonzo hn)
  refine ⟨r, memo', ?_, hr⟩
  refine Memoized.returns_bind.mpr ⟨n, memo, Memoized.returns_ofExcept.mpr ⟨hn, rfl⟩, ?_⟩
  refine Memoized.returns_bind.mpr ⟨_, memo', hinflect, ?_⟩
  rw [hups, hlifts, withArrows_zero]
  exact Memoized.returns_ofExcept.mpr ⟨rfl, rfl⟩

/-- The note name and the inflections of a value lower to a vector that is moved to C4. -/
theorem run_lowerPitch {name : Pitch} (hname : name.skeleton = .ok w) (h : Composed s m w i cs)
    (hc4 : c.c4 = .exact c4) : ∃ (r : Monzo) (memo' : CommaMemo),
      r.IsVector s (zipEntries (· + ·) w.exps cs) ∧
      (∀ product, c4.mul s r = .ok product →
        (lowerPitch s c name i).Returns memo (.exact product) memo') ∧
      ∀ fault, c4.mul s r = .error fault → (lowerPitch s c name i).Fails memo fault := by
  obtain ⟨n, hn⟩ : ∃ n, w.toMonzo s = .ok n :=
    ⟨_, Skeleton.toMonzo_of_isVector (isVector_exps h.skeleton_bounded)⟩
  obtain ⟨r, memo', hinflect, hr⟩ := exists_inflect hs hmemo h (Skeleton.isVector_of_toMonzo hn)
  have hbase : (Memoized.ofExcept (name.toMonzo s)).Returns memo n memo :=
    Memoized.returns_ofExcept.mpr ⟨bind_eq_ok.mpr ⟨w, hname, hn⟩, rfl⟩
  refine ⟨r, memo', hr, ?_, ?_⟩
  · intro product hproduct
    have hmul : c.c4.mul s (.exact r) = .ok (.exact product) := by
      rw [hc4]
      exact map_eq_ok.mpr ⟨product, hproduct, rfl⟩
    refine Memoized.returns_bind.mpr ⟨n, memo, hbase, ?_⟩
    refine Memoized.returns_bind.mpr ⟨_, memo', hinflect, ?_⟩
    refine Memoized.returns_bind.mpr ⟨_, memo', Memoized.returns_ofExcept.mpr ⟨hmul, rfl⟩, ?_⟩
    rw [hups, hlifts, withArrows_zero]
    exact Memoized.returns_ofExcept.mpr ⟨rfl, rfl⟩
  · intro fault hfault
    have hmul : c.c4.mul s (.exact r) = .error fault := by
      rw [hc4]
      show (c4.mul s r).map Value.exact = _
      rw [hfault]
      rfl
    refine Memoized.fails_bind hbase (Memoized.fails_bind hinflect ?_)
    exact Memoized.fails_bind_left (Memoized.fails_ofExcept hmul)

end

/-! ## Back to the value -/

theorem length_zipEntries_exps (htwo : 2 ≤ cs.length) :
    (zipEntries (· + ·) w.exps cs).length = cs.length := by
  rw [length_zipEntries, w.length_exps]
  omega

/-- What an interval is put together from is strictly equal to it. -/
theorem strictEquals_of_composed (hsplits : Splits s m base i) (h : Composed s m w i cs)
    (hm : boundsFault? s m = none) (hr : r.IsVector s (zipEntries (· + ·) w.exps cs)) :
    r.strictEquals s m = .ok true := by
  have hcs := h.commas.length_le_tableSize
  have hlen := hsplits.components_le
  have hcomponents : r.components = cs.length := by
    rw [hr.components, length_zipEntries_exps h.commas.two_le_length]
  have htop : max r.components m.components ≤ Prime.tableSize := by omega
  refine strictEquals_of_spread (by omega) hlen hr.bounded hm
    (hr.time.trans hsplits.time.symm) hr.uncorrected hsplits.uncorrected ?_
  rw [h.spread _ (le_max_right _ _) (by omega) htop, hr.parts_eq, spread_one htop]

/-- What an interval from C4 is put together from, moved to C4, is strictly equal to the value
that the interval leads to. -/
theorem strictEquals_of_relative (hdiv : m.div s c4 = .ok (.exact relative))
    (hsplits : Splits s { relative with cents := 0 } base i)
    (h : Composed s { relative with cents := 0 } w i cs) (hm : boundsFault? s m = none)
    (hcents : m.cents == 0) (hcents4 : c4.cents == 0)
    (hr : r.IsVector s (zipEntries (· + ·) w.exps cs)) (hmul : c4.mul s r = .ok product) :
    product.strictEquals s m = .ok true := by
  obtain ⟨-, hcomponents, htime, hcents', hbounded⟩ := parts_of_mul hmul
  obtain ⟨hdividend, hrelative, htime', -, -⟩ := parts_of_div hdiv
  have hres4 := residual_ne_zero_of_div hdiv
  have hresrel : relative.residual ≠ 0 := hsplits.residual_pos.ne'
  have hresm : m.residual ≠ 0 := by
    have hsnd : (spread c4.components m.parts).2 ≠ 0 := by
      rw [hdividend]
      exact mul_ne_zero hresrel (spread_ne_zero_iff.mpr hres4)
    exact spread_ne_zero_iff.mp hsnd
  have hcs := h.commas.length_le_tableSize
  have hlen : relative.components ≤ Prime.tableSize := hsplits.components_le
  have hcomponentsr : r.components = cs.length := by
    rw [hr.components, length_zipEntries_exps h.commas.two_le_length]
  have htop : max product.components m.components ≤ Prime.tableSize := by omega
  refine strictEquals_of_spread (by omega) (by omega) hbounded hm ?_ ?_ hcents ?_
  · have hscalar : relative.time = 0 := hsplits.time
    rw [htime, hr.time, add_zero]
    linarith
  · rw [hcents']
    exact add_beq_zero hcents4 hr.uncorrected
  · -- both are C4 and the vector together, over the primes of all of them
    have hvector := h.spread (max product.components m.components)
      (show relative.components ≤ _ by omega) (by omega) htop
    rw [spread_of_mul htop (by omega) (by omega) hmul hres4 (by rw [hr.residual]; exact one_ne_zero),
      spread_of_div htop (by omega) (by omega) hdiv hresm hresrel, hr.parts_eq, spread_one htop,
      combined_comm]
    rw [← hvector]
    rfl

/-! ## Realizing -/

/-- Lowering a literal gives back a value, or overflows. -/
def Restores (s : Settings) (context : Option Context) (l : Literal) (memo : CommaMemo)
    (m : Monzo) : Prop :=
  (∃ (a : Interval) (memo' : CommaMemo), (l.lower s context).Returns memo (.interval a) memo' ∧
    a.value.strictEquals s (.exact m) = .ok true) ∨ l.Overflows s context memo

theorem of_realizePlain {count : ArrowCount} {spelled : Literal} (hs : s.Valid)
    (hm : boundsFault? s m = none) (hups : count.ups = 0) (hlifts : count.lifts = 0)
    (hmemo : memo.Sound) (hmemo₁ : memo₁.Sound) (context : Option Context)
    (h : (realizePlain s m flavor count).Returns memo (.realized spelled) memo') :
    Restores s context spelled memo₁ m := by
  obtain ⟨found, rest, hfound, h⟩ := Memoized.returns_bind.mp h
  cases found with
  | none => exact absurd (Memoized.returns_pure.mp h).1 (by simp)
  | some parts =>
    obtain ⟨name, i⟩ := parts
    obtain ⟨heq, -⟩ := Memoized.returns_pure.mp h
    cases heq
    rw [spellInterval_eq] at hfound
    obtain ⟨base, hsplits, hread⟩ := of_spellWith hs hmemo hfound
    obtain ⟨w, cs, hbase, hcomposed⟩ := hsplits.exists_composed hm
    rw [Pythagorean.ofMonzo, hbase] at hread
    obtain rfl := Pythagorean.skeleton_of_ofSkeleton? (Except.ok.inj hread)
    obtain ⟨c, hc⟩ := Context.exists_given (one_le_absurdExponent hm) context
    have hcomposed' : Composed s m name.skeleton (i.withArrows count) cs :=
      ⟨hcomposed.commas, hcomposed.skeleton_bounded, hcomposed.bounded, hcomposed.spread⟩
    obtain ⟨r, memo₂, hlower, hr⟩ := exists_lowerInterval hs hmemo₁ hups hlifts hcomposed' c
    exact .inl ⟨_, memo₂, (lower_returns_iff rfl).mpr ⟨c, .exact r, hc, hlower, rfl⟩,
      strictEquals_of_composed hsplits hcomposed hm hr⟩

theorem of_stripArrows {count : ArrowCount} (hcents : m.cents == 0)
    (h : stripArrows s m c = .ok (.inl (plain, count))) :
    plain = { m with cents := 0 } ∧ boundsFault? s plain = none ∧ count.ups = 0 ∧
      count.lifts = 0 := by
  obtain ⟨count', hcount, h⟩ := bind_eq_ok.mp h
  obtain ⟨hups, hlifts⟩ := ArrowCount.eq_zero_of_ofCents hcents hcount
  split at h
  · obtain ⟨plain', hplain, h⟩ := bind_eq_ok.mp h
    obtain ⟨hbounded, rfl⟩ := checked_eq_ok_iff.mp hplain
    cases h
    exact ⟨rfl, hbounded, hups, hlifts⟩
  · cases h

theorem of_realizePitch {spelled : Literal} (hs : s.Valid)
    (hdefault : s.absurdExponent = ({} : Settings).absurdExponent)
    (hm : boundsFault? s m = none) (hcents : m.cents == 0) (hc4 : c.c4 = .exact c4)
    (hbounded4 : boundsFault? s c4 = none) (hcents4 : c4.cents == 0)
    (hdiv : m.div s c4 = .ok (.exact relative)) (hmemo : memo.Sound) (hmemo₁ : memo₁.Sound)
    (h : (realizePitch s relative flavor c).Returns memo (.realized spelled) memo') :
    Restores s (some c) spelled memo₁ m := by
  obtain ⟨-, hrelative, -, hcents', -⟩ := parts_of_div hdiv
  obtain ⟨stripped, rest, hstripped, h⟩ := Memoized.returns_bind.mp h
  obtain ⟨hstrip, rfl⟩ := Memoized.returns_ofExcept.mp hstripped
  cases stripped with
  | inr reason => exact absurd (Memoized.returns_pure.mp h).1 (by simp)
  | inl parts =>
    obtain ⟨plain, count⟩ := parts
    have hzero : relative.cents == 0 := by
      rw [hcents']
      exact sub_beq_zero hcents hcents4
    obtain ⟨rfl, hplain, hups, hlifts⟩ := of_stripArrows hzero hstrip
    obtain ⟨found, rest, hfound, h⟩ := Memoized.returns_bind.mp h
    cases found with
    | none => exact absurd (Memoized.returns_pure.mp h).1 (by simp)
    | some parts =>
      obtain ⟨name, i⟩ := parts
      obtain ⟨heq, -⟩ := Memoized.returns_pure.mp h
      cases heq
      rw [spellPitch_eq] at hfound
      obtain ⟨base, hsplits, hread⟩ := of_spellWith hs hmemo hfound
      obtain ⟨w, cs, hbase, hcomposed⟩ := hsplits.exists_composed hplain
      obtain ⟨w', hw', hread⟩ := bind_eq_ok.mp hread
      obtain rfl := Except.ok.inj (hbase.symm.trans hw')
      have hname := Pitch.skeleton_of_ofSkeleton_of_bounded hdefault hcomposed.skeleton_bounded hread
      have hcomposed' : Composed s { relative with cents := 0 } w (i.withArrows count) cs :=
        ⟨hcomposed.commas, hcomposed.skeleton_bounded, hcomposed.bounded, hcomposed.spread⟩
      obtain ⟨r, memo₂, hr, hreturns, hfails⟩ :=
        run_lowerPitch hs hmemo₁ hups hlifts hname hcomposed' hc4
      have hlen4 : c4.components ≤ Prime.tableSize := by
        have hlen : relative.components ≤ Prime.tableSize := hsplits.components_le
        omega
      have hes : (zipEntries (· + ·) w.exps cs).length ≤ Prime.tableSize := by
        rw [length_zipEntries_exps hcomposed.commas.two_le_length]
        exact hcomposed.commas.length_le_tableSize
      -- the name denotes the interval above C4, and lowers to its product with C4
      cases hproduct : c4.mul s r with
      | ok product =>
        exact .inl ⟨_, memo₂, (lower_returns_iff rfl).mpr ⟨c, .exact product, rfl,
          hreturns product hproduct, rfl⟩,
          strictEquals_of_relative hdiv hsplits hcomposed hm hcents hcents4 hr hproduct⟩
      | error fault =>
        exact .inr (overflows_of_lowerValue rfl rfl
          (family_of_mul hdefault hbounded4 hcents4 hlen4 hr hes hproduct) (hfails fault hproduct))

/-- A context whose pitch of C4 is exact, within the bounds and without correction. -/
def Context.IsPlain (s : Settings) (c : Context) : Prop :=
  ∃ c4 : Monzo, c.c4 = .exact c4 ∧ boundsFault? s c4 = none ∧ c4.cents == 0

/-- Under the default bounds, whenever a placeholder of an exact value without correction is
realized as a literal, that literal lowers to a strictly equal value, or its lowering overflows;
and this no matter which commas have been found in between. -/
theorem realize_sound {l spelled : Literal} {context : Option Context} (hs : s.Valid)
    (hdefault : s.absurdExponent = ({} : Settings).absurdExponent)
    (hm : boundsFault? s m = none) (hcents : m.cents == 0)
    (hcontext : ∀ c ∈ context, c.IsPlain s)
    (hl : l = .aspiringInterval flavor ∨ l = .aspiringPitch flavor) (hmemo : memo.Sound)
    (hmemo₁ : memo₁.Sound)
    (h : (realize s (.exact m) (some l) context).Returns memo (.realized spelled) memo') :
    Restores s context spelled memo₁ m := by
  rcases hl with rfl | rfl
  · replace h : (realizeInterval s m flavor context).Returns memo (.realized spelled) memo' := h
    unfold realizeInterval at h
    rw [if_pos (show m.isUncorrected = true from hcents)] at h
    exact of_realizePlain hs hm rfl rfl hmemo hmemo₁ context h
  · cases context with
    | none => exact absurd (Memoized.returns_pure.mp h).1 (by simp)
    | some c =>
      obtain ⟨c4, hc4, hbounded4, hcents4⟩ := hcontext c rfl
      obtain ⟨quotient, rest, hquotient, h⟩ := Memoized.returns_bind.mp h
      obtain ⟨hdiv, rfl⟩ := Memoized.returns_ofExcept.mp hquotient
      rw [hc4] at hdiv
      cases quotient with
      | real a => exact absurd (Memoized.returns_pure.mp h).1 (by simp)
      | exact relative =>
        exact of_realizePitch hs hdefault hm hcents hc4 hbounded4 hcents4 hdiv hmemo hmemo₁ h

/-- A run that starts without commas finds a concrete literal. -/
def findsLiteral (x : Memoized Realization) : Bool :=
  match (x.run.run []).1 with
  | .ok (.realized _) => true
  | _ => false

theorem returns_of_findsLiteral {x : Memoized Realization} (h : findsLiteral x = true) :
    ∃ spelled memo, x.Returns [] (.realized spelled) memo := by
  rcases hrun : x.run.run [] with ⟨outcome, memo⟩
  rw [findsLiteral, hrun] at h
  match outcome, h with
  | .ok (.realized spelled), _ => exact ⟨spelled, memo, hrun⟩

/-- A third above C4, whose five is held in the residual, is realized and restored. -/
theorem realize_thirdAboveC4 : ∃ (spelled : Literal) (memo : CommaMemo),
    (realize {} (.exact { time := -1, exps := [1, 1], residual := 5 }) (some (.aspiringPitch ""))
      (some ⟨1, 5, .exact { time := -1, exps := [3, 1] }, ""⟩)).Returns [] (.realized spelled) memo ∧
    Restores {} (some ⟨1, 5, .exact { time := -1, exps := [3, 1] }, ""⟩) spelled []
      { time := -1, exps := [1, 1], residual := 5 } := by
  have hfinds : findsLiteral (realize {} (.exact { time := -1, exps := [1, 1], residual := 5 })
      (some (.aspiringPitch "")) (some ⟨1, 5, .exact { time := -1, exps := [3, 1] }, ""⟩)) = true := by
    decide +kernel
  obtain ⟨spelled, memo, h⟩ := returns_of_findsLiteral hfinds
  refine ⟨spelled, memo, h, ?_⟩
  refine realize_sound Settings.valid_default rfl (by decide +kernel) zero_beq_zero ?_ (.inr rfl)
    .nil .nil h
  intro c hc
  cases hc
  exact ⟨_, rfl, by decide +kernel, zero_beq_zero⟩

end Intonation
