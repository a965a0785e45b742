import Intonation.Proofs.FJS.Faults
import Intonation.Proofs.FJS.Naming
import Intonation.Proofs.Literal.Flavors

/-!
# How spelling fails

A failure of arithmetic on the way to a spelling means that there is none. What is no failure of
arithmetic escapes: a residual with a prime that cannot be moved into the exponents, and exponents
beyond the table. Once the commas are split off, a name is found or not, without failing, unless
the octave of a pitch is too large for a double.

## Main definitions

* `Monzo.HasStrayPrime`: residuals that cannot be moved into the exponents

## Main statements

* `Monzo.meets_folded`: moving the residual into the exponents
* `meets_skeletonOf`: splitting off commas
* `meets_spellInterval`, `meets_spellPitch`: spelling a value
* `fails_spellInterval`, `fails_spellPitch`: spelling a value with a prime beyond the table
-/

namespace Intonation
open Double Intonation.Prime

/-! ## Moving the residual into the exponents -/

namespace Monzo

/-- A prime of the residual is beyond the table, or has an exponent already. -/
def HasStrayPrime (m : Monzo) : Prop :=
  ∃ p : Nat, p.Prime ∧ (tableLimit < p ∨ p ∈ table.take m.components) ∧
    (p ∣ m.residual.num.natAbs ∨ p ∣ m.residual.den)

variable {F : Fault → Prop} {s : Settings} {m : Monzo} {limit : Nat}

/-- A positive residual without stray primes needs more primes than have exponents. -/
theorem components_lt_of_limit? (hpos : 0 < m.residual) (hone : m.residual ≠ 1)
    (hstray : ¬ m.HasStrayPrime) (h : limit? m.residual = some limit) : m.components < limit := by
  by_contra hle
  rw [not_lt] at hle
  have hd := distinct_table.take limit
  have hndvd : ∀ p ∈ table.take limit, ¬ (p ∣ m.residual.num.natAbs ∨ p ∣ m.residual.den) :=
    fun p hp hdvd => hstray ⟨p, hd.prime p hp,
      .inr ((List.take_prefix_take_left hle).subset hp), hdvd⟩
  have hfree : Free (table.take limit) m.residual :=
    (Free.iff_not_dvd hd hpos.ne').mpr fun p hp => not_or.mp (hndvd p hp)
  -- the primes that the residual needs are none of its primes, so nothing is left of it
  have hproduct := (split_spec hd m.residual).2.2
  rw [(limit?_spec hpos h).2, one_mul, ← map_padicValRat_split hd hpos.ne',
    powerProduct_eq_one fun e he => ?_] at hproduct
  · exact hone hproduct.symm
  · obtain ⟨p, hp, rfl⟩ := List.mem_map.mp he
    exact hfree p hp

section
variable (hF : ∀ f : Fault, f.family = .overflow → F f)
  (hs : F .tooLarge ∨ s.absurdExponent ≤ 2 ^ 900) (hm : Tame F m) (hpos : 0 < m.residual)
include hF hs hm hpos

/-- Over all the primes that it needs, nothing is left of a residual. -/
theorem meets_grow (hlimit : limit? m.residual = some limit) (hlt : m.components < limit) :
    Meets (fun n => n.components ≤ tableSize ∧ n.residual = 1) F (m.grow s limit) := by
  obtain ⟨hle, hsplit⟩ := limit?_spec hpos hlimit
  have hwiden : m.widen s limit = m.grow s limit := if_pos hlt
  rw [← hwiden]
  refine ((meets_widen hF hs hm (.inr hle)).and_of_ok fun n hn => ?_).mono fun n h => h.2
  have hcomponents := (components_of_widen hn).trans (max_eq_right hlt.le)
  rw [hwiden] at hn
  obtain ⟨parts, hparts, hn⟩ := bind_eq_ok.mp hn
  obtain ⟨-, rfl⟩ := factor_eq_ok_iff.mp hparts
  obtain ⟨-, rfl⟩ := checked_eq_ok_iff.mp hn
  exact ⟨hcomponents.trans_le hle, hsplit⟩

/-- The residual is moved into the exponents, unless it has a stray prime. -/
theorem meets_folded (hstray : m.HasStrayPrime → F .residualDot) :
    Meets (fun v => v.components ≤ max m.components tableSize) F (m.folded s) := by
  unfold folded primeLimit
  split
  · exact le_max_left _ _
  · next hone =>
    rw [if_neg hpos.ne']
    cases hlimit : limit? m.residual with
    | none =>
      obtain ⟨p, hp, hlarge, hdvd⟩ := exists_prime_of_limit?_eq_none hpos.ne' hlimit
      exact hstray ⟨p, hp, .inl hlarge, hdvd⟩
    | some limit =>
      show Meets _ F (m.resize s (max limit m.components) >>= _)
      unfold resize
      rw [if_neg (not_lt.mpr (le_max_right _ _))]
      rcases lt_or_ge m.components limit with hlt | hge
      · rw [max_eq_left hlt.le, if_pos hlt]
        refine (meets_grow hF hs hm hpos hlimit hlt).bind fun n ⟨hcomponents, hres⟩ => ?_
        rw [if_pos hres]
        exact hcomponents.trans (le_max_right _ _)
      · -- all the primes of the residual have exponents already
        rw [max_eq_right hge, if_neg (lt_irrefl _)]
        refine Meets.bind (P := (· = m)) ?_ ?_
        · refine (meets_checked hF ?_ (.inr hm.vanish)
            (.inr (not_isNaN_of_isFinite hm.finite))).mono fun _ h => h.1
          exact hm.exps_le.imp_right fun hle e he =>
            (hle e he).trans (two_pow_le_two_pow (by norm_num))
        · rintro _ rfl
          rw [if_neg hone]
          refine hstray (not_not.mp fun h => ?_)
          exact not_lt.mpr hge (components_lt_of_limit? hpos hone h hlimit)

end

end Monzo

/-! ## Splitting off commas -/

/-- Giving up hides the failures of arithmetic. -/
theorem Memoized.Meets.giveUp {α : Type} {P : α → Prop} {F : Fault → Prop} {x : Memoized α}
    (h : Meets P (fun f => f.isArithmetic ∨ F f) x) :
    Meets (fun o => ∀ a, o = some a → P a) F (giveUp (some <$> x)) := by
  intro memo hmemo
  obtain ⟨hsound, hmeets⟩ := h memo hmemo
  rw [run_giveUp, map_eq_pure_bind, run_bind]
  rcases hx : x.run.run memo with ⟨outcome, rest⟩
  rw [hx] at hsound hmeets
  cases outcome with
  | ok a =>
    refine ⟨hsound, ?_⟩
    rintro _ ⟨⟩
    exact hmeets
  | error f =>
    simp only
    split
    · refine ⟨hsound, ?_⟩
      rintro _ ⟨⟩
    · next hf => exact ⟨hsound, hmeets.resolve_left hf⟩

section
variable {F : Fault → Prop} {s : Settings} {m : Monzo} {flavor : String}

/-- The inflections of a row of exponents are by primes of the table, unless there are more
exponents than primes. -/
theorem meets_inflectionsOf {primes : List Nat} {es : List ℚ}
    (hlen : F .componentBeyondTable ∨ es.length ≤ primes.length) :
    Meets (fun r : List Inflection × List Inflection =>
      ∀ i ∈ r.1 ++ r.2, i.flavor = flavor ∧ ∃ p ∈ primes, i.number = (p : Nat)) F
      (inflectionsOf flavor primes es) := by
  induction es generalizing primes with
  | nil => cases primes <;> exact fun i hi => by cases hi
  | cons e es ih =>
    cases primes with
    | nil => exact hlen.resolve_right (Nat.not_succ_le_zero _)
    | cons p primes =>
      rw [inflectionsOf]
      refine (ih (hlen.imp_right Nat.le_of_succ_le_succ)).bind ?_
      rintro ⟨up, down⟩ hrest
      have hrow : ∀ i ∈ List.replicate e.num.natAbs (Inflection.mk p flavor),
          i.flavor = flavor ∧ ∃ q ∈ p :: primes, i.number = (q : Nat) := by
        intro i hi
        rw [List.eq_of_mem_replicate hi]
        exact ⟨rfl, p, List.mem_cons_self, rfl⟩
      have htail : ∀ i ∈ up ++ down, i.flavor = flavor ∧ ∃ q ∈ p :: primes, i.number = (q : Nat) := by
        intro i hi
        obtain ⟨hflavor, q, hq, hnumber⟩ := hrest i hi
        exact ⟨hflavor, q, List.mem_cons_of_mem _ hq, hnumber⟩
      rw [List.forall_mem_append] at htail
      show ∀ i ∈ _ ++ _, _
      split
      · rw [List.forall_mem_append, List.forall_mem_append]
        exact ⟨⟨hrow, htail.1⟩, htail.2⟩
      · rw [List.forall_mem_append, List.forall_mem_append]
        exact ⟨htail.1, hrow, htail.2⟩

/-- The primes beyond three are five and up. -/
theorem five_le_of_mem_drop {p : Nat} (h : p ∈ table.drop 2) : 5 ≤ p := by
  obtain ⟨primes, htable, hall⟩ := table_eq_cons
  rw [htable] at h
  exact hall p h

/-- A quotient is within the bounds in force. -/
theorem Value.bounded_of_div {v w : Value} {b : Monzo} (h : v.div s w = .ok (.exact b)) :
    Monzo.boundsFault? s b = none := by
  cases v with
  | real a => cases w <;> cases h
  | exact m =>
    cases w with
    | real a => cases h
    | exact n =>
      change m.div s n = _ at h
      unfold Monzo.div at h
      split at h
      · cases h
      · obtain ⟨q, hq, heq⟩ := map_eq_ok.mp h
        cases heq
        obtain ⟨p, -, hq⟩ := bind_eq_ok.mp hq
        obtain ⟨hbounded, rfl⟩ := Monzo.checked_eq_ok_iff.mp hq
        exact hbounded

/-- What is left of a value and the commas that were split off. -/
structure Uninflected.IsSplit (s : Settings) (u : Uninflected) : Prop where
  bounded : ∀ b, u.base = .exact b → Monzo.boundsFault? s b = none
  known : ∀ i ∈ u.superscripts ++ u.subscripts, i.flavor ∈ Inflection.flavors ∧ 5 ≤ i.number

/-- Commas are split off, unless arithmetic fails, the residual has a stray prime, or there are more
exponents than primes. -/
theorem meets_uninflect (hm : m.IsBounded) (hpos : 0 < m.residual)
    (hflavor : flavor ∈ Inflection.flavors) (hstray : m.HasStrayPrime → F .residualDot)
    (hlong : F .componentBeyondTable ∨ m.components ≤ tableSize) :
    Memoized.Meets (Uninflected.IsSplit s) (fun f => f.isArithmetic ∨ F f)
      (uninflect s m flavor) := by
  have hoverflow : ∀ f : Fault, f.family = .overflow → f.isArithmetic ∨ F f := fun f hf =>
    .inl (by rw [Fault.isArithmetic, hf])
  -- numbers that are too large and tables that are exhausted are failures of arithmetic
  have hs : (Fault.tooLarge.isArithmetic ∨ F .tooLarge) ∨ s.absurdExponent ≤ 2 ^ 900 :=
    .inl (.inl rfl)
  obtain ⟨t, ht⟩ := hm
  have htame : Value.Tame (fun f => f.isArithmetic ∨ F f) (.exact m) :=
    Monzo.Tame.of_bounded (.inl (.inl rfl)) (.inl (.inl rfl)) ht
  have hfolded := Monzo.meets_folded hoverflow hs htame hpos fun h => .inr (hstray h)
  unfold uninflect
  refine (Memoized.Meets.ofExcept hfolded).bind fun vector hvector => ?_
  have hlength : (Fault.componentBeyondTable.isArithmetic ∨ F .componentBeyondTable) ∨
      (vector.exps.drop 2).length ≤ (table.drop 2).length := by
    refine hlong.imp .inr fun hle => ?_
    rw [List.length_drop, List.length_drop, length_table]
    exact Nat.sub_le_sub_right (hvector.trans (max_le hle le_rfl)) 2
  refine (Memoized.Meets.ofExcept (meets_inflectionsOf hlength)).bind fun ⟨up, down⟩ hrows => ?_
  have hknown : ∀ i ∈ up ++ down, i.flavor ∈ Inflection.flavors ∧ 5 ≤ i.number := by
    intro i hi
    obtain ⟨rfl, p, hp, hnumber⟩ := hrows i hi
    have := five_le_of_mem_drop hp
    exact ⟨hflavor, by omega⟩
  have hharmless : ∀ i ∈ up ++ down, i.Harmless fun f => f.isArithmetic ∨ F f := fun i hi =>
    ⟨by have := (hknown i hi).2; omega, fun _ => .inl rfl, .inl (.inl rfl),
      fun _ _ _ _ _ => .inl rfl⟩
  rw [List.forall_mem_append] at hharmless
  refine (meets_inflection hoverflow hharmless.1 hharmless.2 hs).bind fun commas hcommas => ?_
  have hquotient : Meets (fun v => ∀ b, v = .exact b → Monzo.boundsFault? s b = none)
      (fun f => f.isArithmetic ∨ F f) ((Value.exact m).div s commas) := by
    refine ((Value.meets_div hoverflow hs htame hcommas).and_of_ok fun v hdiv => ?_).mono
      fun _ h => h.2
    rintro b rfl
    exact Value.bounded_of_div hdiv
  exact (Memoized.Meets.ofExcept hquotient).bind fun base hbase => .pure ⟨hbase, hknown⟩

/-- The base of a value and its inflections, when nothing else is left. -/
structure IsSkeleton (s : Settings) (base : Monzo) (i : Inflections) : Prop where
  bounded : Monzo.boundsFault? s base = none
  residual : base.residual = 1
  accepted : i.make = .ok i

theorem residual_pos_of_isSpellable (h : isSpellable m) : 0 < m.residual := by
  simp only [isSpellable, Bool.and_eq_true, decide_eq_true_eq] at h
  exact h.1.2

theorem meets_skeletonOf (hm : m.IsBounded) (hflavor : flavor ∈ Inflection.flavors)
    (hstray : m.HasStrayPrime → F .residualDot)
    (hlong : F .componentBeyondTable ∨ m.components ≤ tableSize) :
    Memoized.Meets (fun o => ∀ base i, o = some (base, i) → IsSkeleton s base i) F
      (skeletonOf s m flavor) := by
  unfold skeletonOf
  split
  · next hspell =>
    refine (meets_uninflect hm (residual_pos_of_isSpellable hspell) hflavor hstray
      hlong).giveUp.bind fun o ho => ?_
    split
    · next base up down =>
      split
      · next hflat =>
        rw [Bool.and_eq_true, decide_eq_true_eq] at hflat
        have hsplit := ho _ rfl
        refine .pure ?_
        rintro _ _ ⟨⟩
        exact ⟨hsplit.bounded base rfl, hflat.2, Inflections.make_eq_iff.mpr hsplit.known⟩
      · refine .pure ?_
        rintro _ _ ⟨⟩
    · refine .pure ?_
      rintro _ _ ⟨⟩
  · refine .pure ?_
    rintro _ _ ⟨⟩

end

/-! ## Names -/

/-- A value without residual has an exponent of every prime of the table. -/
theorem Monzo.exists_exponentOf {m : Monzo} {k p : Nat} (hres : m.residual = 1)
    (hp : table[k]? = some p) : ∃ e, m.exponentOf p = .ok e ∧ (e ∈ m.exps ∨ e = 0) := by
  unfold exponentOf
  rw [index?_eq_some_iff.mpr ⟨p, rfl, hp⟩]
  simp only
  cases he : m.exps[k]? with
  | some e => exact ⟨e, rfl, .inl (List.mem_of_getElem? he)⟩
  | none =>
    have hone : (split (table.take (k + 1)) 1).1.getD k 0 = 0 := by
      rw [← map_padicValRat_split (distinct_table.take _) one_ne_zero, List.getD_eq_getElem?_getD,
        List.getElem?_map]
      cases (table.take (k + 1))[k]? <;> simp
    refine ⟨0, ?_, .inr rfl⟩
    rw [hres]
    refine bind_eq_ok.mpr ⟨_, factor_eq_ok_iff.mpr ⟨lt_tableSize hp, rfl⟩, ?_⟩
    rw [hone]
    rfl

namespace IsSkeleton

variable {F : Fault → Prop} {s : Settings} {base : Monzo} {i : Inflections} {v : Skeleton}

/-- The twos and threes of a base are there. -/
theorem exists_skeleton (h : IsSkeleton s base i) : ∃ v, Skeleton.ofMonzo base = .ok v ∧
    (v.twos ∈ base.exps ∨ v.twos = 0) ∧ (v.threes ∈ base.exps ∨ v.threes = 0) := by
  obtain ⟨twos, htwos, hmem⟩ := Monzo.exists_exponentOf (k := 0) (p := 2) h.residual
    (by decide +kernel)
  obtain ⟨threes, hthrees, hmem'⟩ := Monzo.exists_exponentOf (k := 1) (p := 3) h.residual
    (by decide +kernel)
  exact ⟨⟨twos, threes⟩, bind_eq_ok.mpr ⟨_, htwos, bind_eq_ok.mpr ⟨_, hthrees, rfl⟩⟩, hmem, hmem'⟩

theorem meets_ofMonzo (h : IsSkeleton s base i) :
    Meets (fun _ => True) F (Pythagorean.ofMonzo base) := by
  obtain ⟨v, hv, -⟩ := h.exists_skeleton
  rw [Pythagorean.ofMonzo, hv]
  trivial

/-- The steps that a base spans are far from the range of doubles, unless the bounds are not. -/
theorem abs_stepspan_le (h : IsSkeleton s base i) (hs : s.absurdExponent ≤ 2 ^ 900)
    (htwos : v.twos ∈ base.exps ∨ v.twos = 0) (hthrees : v.threes ∈ base.exps ∨ v.threes = 0) :
    |v.stepspan| ≤ 2 ^ 916 := by
  have hle : ∀ e : ℚ, e ∈ base.exps ∨ e = 0 → |e| ≤ 2 ^ 911 := by
    rintro e (he | rfl)
    · exact Monzo.abs_le_of_bounded' hs h.bounded e he
    · rw [abs_zero]
      positivity
  calc |v.stepspan| ≤ |v.twos * 7| + |v.threes * 11| := abs_add_le _ _
    _ = |v.twos| * 7 + |v.threes| * 11 := by rw [abs_mul, abs_mul]; norm_num
    _ ≤ 2 ^ 911 * 7 + 2 ^ 911 * 11 :=
      add_le_add (mul_le_mul_of_nonneg_right (hle _ htwos) (by norm_num))
        (mul_le_mul_of_nonneg_right (hle _ hthrees) (by norm_num))
    _ ≤ 2 ^ 911 * 2 ^ 5 := by
      rw [← mul_add]
      exact mul_le_mul_of_nonneg_left (by norm_num) (by positivity)
    _ = 2 ^ 916 := (pow_add 2 911 5).symm

/-- A pitch has a name or not; its octave may be too large for a double. -/
theorem meets_pitch (h : IsSkeleton s base i) (hs : F .tooLarge ∨ s.absurdExponent ≤ 2 ^ 900) :
    Meets (fun _ => True) F (Pitch.ofMonzo base) := by
  obtain ⟨v, hv, htwos, hthrees⟩ := h.exists_skeleton
  rw [Pitch.ofMonzo, hv]
  show Meets _ _ (Pitch.ofSkeleton v)
  unfold Pitch.ofSkeleton
  split
  · trivial
  · next hden =>
    have hsmall : F .tooLarge ∨ |mkRat v.stepspan.num 7| ≤ 2 ^ 1023 := by
      refine hs.imp_right fun hs => ?_
      have hspan := h.abs_stepspan_le hs htwos hthrees
      have hnum : (v.stepspan.num : ℚ) = v.stepspan := (Rat.den_eq_one_iff _).mp (not_not.mp hden)
      rw [Rat.mkRat_eq_div, hnum, abs_div]
      calc |v.stepspan| / |((7 : Nat) : ℚ)| ≤ |v.stepspan| := div_le_self (abs_nonneg _) (by norm_num)
        _ ≤ 2 ^ 1023 := hspan.trans (two_pow_le_two_pow (by norm_num))
    refine Meets.bind (P := fun _ => True)
      ((Number.meets_toDouble hsmall).bind fun x _ => trivial) fun octave _ => ?_
    exact Meets.ite trivial trivial

end IsSkeleton

/-- Spelling fails by what cannot be given up alone. -/
theorem meets_spellWith {α : Type} {F : Fault → Prop} {s : Settings} {m : Monzo} {flavor : String}
    {read : Monzo → Except Fault (Option α)}
    (hread : ∀ base i, IsSkeleton s base i → Meets (fun _ => True) F (read base))
    (hm : m.IsBounded) (hflavor : flavor ∈ Inflection.flavors)
    (hstray : m.HasStrayPrime → F .residualDot)
    (hlong : F .componentBeyondTable ∨ m.components ≤ tableSize) :
    Memoized.Meets (fun _ => True) F (spellWith s m flavor read) := by
  refine (meets_skeletonOf hm hflavor hstray hlong).bind fun o ho => ?_
  cases o with
  | none => exact .pure trivial
  | some parts =>
    obtain ⟨base, i⟩ := parts
    have hskeleton := ho base i rfl
    refine (Memoized.Meets.ofExcept (hread base i hskeleton)).bind fun named _ => ?_
    cases named with
    | none => exact .pure trivial
    | some name =>
      have hmake : Meets (fun _ => True) F i.make := by
        rw [hskeleton.accepted]
        trivial
      exact (Memoized.Meets.ofExcept hmake).bind fun _ _ => .pure trivial

section
variable {F : Fault → Prop} {s : Settings} {m : Monzo} {flavor : String} (hm : m.IsBounded)
  (hflavor : flavor ∈ Inflection.flavors) (hstray : m.HasStrayPrime → F .residualDot)
  (hlong : F .componentBeyondTable ∨ m.components ≤ tableSize)
include hm hflavor hstray hlong

theorem meets_spellInterval : Memoized.Meets (fun _ => True) F (spellInterval s m flavor) := by
  rw [spellInterval_eq]
  exact meets_spellWith (fun _ _ h => h.meets_ofMonzo) hm hflavor hstray hlong

theorem meets_spellPitch (hs : F .tooLarge ∨ s.absurdExponent ≤ 2 ^ 900) :
    Memoized.Meets (fun _ => True) F (spellPitch s m flavor) := by
  rw [spellPitch_eq]
  exact meets_spellWith (fun _ _ h => h.meets_pitch hs) hm hflavor hstray hlong

end

/-! ## Primes beyond the table -/

theorem Memoized.fails_giveUp {α : Type} {x : Memoized (Option α)} {memo : CommaMemo} {f : Fault}
    (h : x.Fails memo f) (hf : f.isArithmetic = false) : (giveUp x).Fails memo f := by
  obtain ⟨rest, hx⟩ := h
  refine ⟨rest, ?_⟩
  rw [run_giveUp, hx]
  simp only [hf]
  rfl

section
variable {s : Settings} {m : Monzo} {p : Nat} {memo : CommaMemo} {flavor : String}
  (hp : p.Prime) (hlarge : tableLimit < p)
  (hdvd : p ∣ m.residual.num.natAbs ∨ p ∣ m.residual.den)
include hp hlarge hdvd

theorem Monzo.folded_of_primeBeyondTable (hpos : 0 < m.residual) :
    m.folded s = .error .residualDot := by
  have hone : m.residual ≠ 1 := by
    intro h
    rw [h] at hdvd
    exact hdvd.elim hp.not_dvd_one hp.not_dvd_one
  unfold folded primeLimit
  rw [if_neg hone, if_neg hpos.ne', limit?_eq_none hpos hp hlarge hdvd]

/-- A spellable value with a prime beyond the table is not given up. -/
theorem fails_skeletonOf (hm : isSpellable m) :
    (skeletonOf s m flavor).Fails memo .residualDot := by
  have hfolded := Monzo.folded_of_primeBeyondTable (s := s) hp hlarge hdvd
    (residual_pos_of_isSpellable hm)
  unfold skeletonOf
  rw [if_pos hm]
  exact Memoized.fails_bind_left (Memoized.fails_giveUp
    (Memoized.fails_map (Memoized.fails_bind_left (Memoized.fails_ofExcept hfolded))) rfl)

theorem fails_spellInterval (hm : isSpellable m) :
    (spellInterval s m flavor).Fails memo .residualDot :=
  Memoized.fails_bind_left (fails_skeletonOf hp hlarge hdvd hm)

theorem fails_spellPitch (hm : isSpellable m) :
    (spellPitch s m flavor).Fails memo .residualDot :=
  Memoized.fails_bind_left (fails_skeletonOf hp hlarge hdvd hm)

end

end Intonation
