import Intonation.Interval.Realization
import Intonation.Proofs.FJS.Arrows
import Intonation.Proofs.FJS.Unspelled
import Intonation.Proofs.Interval.Obtained

/-!
# What realization does not give up

Giving up is no failure, and whatever is obtained from literals and operators is realized, or given
up, or else fails for one of the causes listed: a residual whose primes cannot be moved into the
exponents, more exponents than the table has primes, a correction that no double counts, and values
that exceed the bounds in force only now, or only relative to the C4 of the context.

## Main definitions

* `Interval.Awaits`: the exact values that wait for a name
* `Interval.Slip`: the faults of realization, with their causes

## Main statements

* `Interval.meets_realize`: realization fails with these faults alone
* `Interval.fails_realize`: a prime beyond the table is such a fault
* `Interval.realizes_or_slips`: realizing and writing what is obtained
-/

namespace Intonation
open Double Intonation.Prime

namespace Interval

/-! ## What waits for a name -/

/-- A pitch is to be named relative to the C4 of a context. -/
def RelatesTo (context : Option Context) (i : Interval) (c : Context) : Prop :=
  context = some c ∧ ∃ flavor, i.literal = some (.aspiringPitch flavor)

/-- An exact value waits for a name: that of an interval, or that of a pitch relative to C4. -/
inductive Awaits (s : Settings) (context : Option Context) (i : Interval) (m : Monzo) : Prop
  | interval {flavor : String} (hl : i.literal = some (.aspiringInterval flavor))
      (hv : i.value = .exact m)
  | pitch {c : Context} (h : i.RelatesTo context c) (hdiv : i.value.div s c.c4 = .ok (.exact m))

/-- The faults that are not given up, with their causes. -/
inductive Slip (s : Settings) (context : Option Context) (i : Interval) : Fault → Prop
  /-- A prime of the residual is not moved into the exponents. -/
  | residual {m : Monzo} (h : i.Awaits s context m) (hm : m.HasStrayPrime) :
      Slip s context i .residualDot
  /-- There are more exponents than the table has primes. -/
  | component {m : Monzo} (h : i.Awaits s context m) (hm : tableSize < m.components) :
      Slip s context i .componentBeyondTable
  /-- The ups and lifts of a correction are too many to count. -/
  | count {m : Monzo} {c : Context} {f : Fault} (h : i.Awaits s context m) (hc : context = some c)
      (hcents : ¬ m.cents == 0) (hf : ArrowCount.ofCents m.cents c.up c.lift = .error f) :
      Slip s context i f
  /-- What is left without the correction exceeds the bounds in force. -/
  | bounds {m : Monzo} {f : Fault} (h : i.Awaits s context m) (hcents : ¬ m.cents == 0)
      (hf : Monzo.boundsFault? s { m with cents := 0 } = some f) : Slip s context i f
  /-- The value relative to C4 exceeds the bounds in force. -/
  | relative {c : Context} {f : Fault} (h : i.RelatesTo context c)
      (hdiv : i.value.div s c.c4 = .error f) (hf : f.family = .overflow) : Slip s context i f
  /-- The value or C4 has more components than the table has primes. -/
  | table {c : Context} (h : i.RelatesTo context c) (hlong : i.value.Sprawling ∨ c.c4.Sprawling) :
      Slip s context i .tableExhausted
  /-- A number is so large that no double comes near. -/
  | immense {c : Context} (h : i.RelatesTo context c)
      (hlarge : 2 ^ 900 < s.absurdExponent ∨ i.value.Immense ∨ c.c4.Immense) :
      Slip s context i .tooLarge

end Interval

/-! ## Realizing -/

variable {F : Fault → Prop} {s : Settings} {m plain : Monzo} {v : Value} {flavor : String}
  {c : Context} {context : Option Context} {i : Interval} {memo : CommaMemo} {l : Literal}

/-- All literals but placeholders are written. -/
theorem Literal.exists_text (h : l.isAspiring = false) : ∃ t, l.text = .ok t := by
  cases l with
  | superparticular start stop => cases stop <;> exact ⟨_, rfl⟩
  | aspiringInterval flavor => cases h
  | aspiringPitch flavor => cases h
  | _ => exact ⟨_, rfl⟩

/-- Dropping a correction keeps a value within the bounds. -/
theorem Monzo.bounded_uncorrected (h : boundsFault? s m = none) :
    boundsFault? s { m with cents := 0 } = none := by
  obtain ⟨hexps, hrest⟩ := boundsFault?_eq_none_iff.mp h
  exact bounded_of_uncorrected hexps hrest.bits_le zero_beq_zero

/-- A value without its correction, unless the correction is not counted or the value exceeds the
bounds. -/
theorem meets_stripArrows (hc : c.WellFormed)
    (hcount : ¬ m.cents == 0 → ∀ f, ArrowCount.ofCents m.cents c.up c.lift = .error f → F f)
    (hbounds : ∀ f, Monzo.boundsFault? s { m with cents := 0 } = some f → F f) :
    Meets (fun r => ∀ plain count, r = .inl (plain, count) →
      plain = { m with cents := 0 } ∧ plain.IsBounded) F (stripArrows s m c) := by
  have hcounted : Meets (fun _ => True) F (ArrowCount.ofCents m.cents c.up c.lift) := by
    cases h : ArrowCount.ofCents m.cents c.up c.lift with
    | ok count => trivial
    | error f =>
      refine hcount (fun hzero => ?_) f h
      obtain ⟨count, hcount, -⟩ := ArrowCount.exists_ofCents hzero hc.up_finite hc.lift_finite
      rw [h] at hcount
      cases hcount
  unfold stripArrows
  refine hcounted.bind fun count _ => ?_
  split
  · have hplain : Meets (fun n => n = { m with cents := 0 } ∧ n.IsBounded) F
        (Monzo.checked s { m with cents := 0 }) := by
      unfold Monzo.checked
      cases h : Monzo.boundsFault? s { m with cents := 0 } with
      | none => exact ⟨rfl, s, h⟩
      | some f => exact hbounds f h
    refine hplain.bind fun n hn => ?_
    rintro _ _ ⟨⟩
    exact hn
  · rintro _ _ ⟨⟩

/-- A literal that is found is no placeholder. -/
def Realization.IsConcrete (r : Realization) : Prop :=
  ∀ l, r = .realized l → l.isAspiring = false

theorem Realization.isConcrete_gaveUp {reason : String} : (gaveUp reason).IsConcrete := by
  rintro _ ⟨⟩

section
variable (hflavor : flavor ∈ Inflection.flavors)
include hflavor

theorem meets_realizePlain {count : ArrowCount} (hm : m.IsBounded)
    (hstray : m.HasStrayPrime → F .residualDot)
    (hlong : tableSize < m.components → F .componentBeyondTable) :
    Memoized.Meets Realization.IsConcrete F (realizePlain s m flavor count) := by
  refine (meets_spellInterval hm hflavor hstray ?_).bind fun o _ => ?_
  · exact (lt_or_ge tableSize m.components).imp_left hlong
  · cases o with
    | none => exact .pure Realization.isConcrete_gaveUp
    | some parts =>
      refine .pure ?_
      rintro _ ⟨⟩
      rfl

theorem meets_realizePitch (hc : c.WellFormed) (hm : Monzo.boundsFault? s m = none)
    (hstray : m.HasStrayPrime → F .residualDot)
    (hlong : tableSize < m.components → F .componentBeyondTable)
    (hcount : ¬ m.cents == 0 → ∀ f, ArrowCount.ofCents m.cents c.up c.lift = .error f → F f)
    (hs : 2 ^ 900 < s.absurdExponent → F .tooLarge) :
    Memoized.Meets Realization.IsConcrete F (realizePitch s m flavor c) := by
  have hbounds : ∀ f, Monzo.boundsFault? s { m with cents := 0 } = some f → F f := by
    intro f hf
    rw [Monzo.bounded_uncorrected hm] at hf
    cases hf
  refine (Memoized.Meets.ofExcept (meets_stripArrows hc hcount hbounds)).bind fun r hr => ?_
  rcases r with ⟨plain, count⟩ | reason
  · obtain ⟨rfl, hplain⟩ := hr plain count rfl
    refine (meets_spellPitch (m := { m with cents := 0 }) hplain hflavor hstray ?_ ?_).bind
      fun o _ => ?_
    · exact (lt_or_ge tableSize m.components).imp_left hlong
    · exact (lt_or_ge (2 ^ 900) s.absurdExponent).imp_left hs
    · cases o with
      | none => exact .pure Realization.isConcrete_gaveUp
      | some parts =>
        refine .pure ?_
        rintro _ ⟨⟩
        rfl
  · exact .pure Realization.isConcrete_gaveUp

theorem meets_realizeInterval (hc : ∀ c, context = some c → c.WellFormed) (hm : m.IsBounded)
    (hstray : m.HasStrayPrime → F .residualDot)
    (hlong : tableSize < m.components → F .componentBeyondTable)
    (hcount : ∀ c, context = some c → ¬ m.cents == 0 →
      ∀ f, ArrowCount.ofCents m.cents c.up c.lift = .error f → F f)
    (hbounds : ¬ m.cents == 0 →
      ∀ f, Monzo.boundsFault? s { m with cents := 0 } = some f → F f) :
    Memoized.Meets Realization.IsConcrete F (realizeInterval s m flavor context) := by
  unfold realizeInterval
  split
  · exact meets_realizePlain hflavor hm hstray hlong
  · next hcents =>
    split
    · exact .pure Realization.isConcrete_gaveUp
    · next c =>
      refine (Memoized.Meets.ofExcept (meets_stripArrows (hc c rfl) (hcount c rfl)
        (hbounds hcents))).bind fun r hr => ?_
      rcases r with ⟨plain, count⟩ | reason
      · obtain ⟨rfl, hplain⟩ := hr plain count rfl
        exact meets_realizePlain hflavor hplain hstray hlong
      · exact .pure Realization.isConcrete_gaveUp

end

namespace Interval

/-- Dividing a pitch by C4. -/
theorem meets_relative (hv : i.value.IsBounded) (hc : c.WellFormed) (h : i.RelatesTo context c) :
    Meets (fun v => ∀ m, v = .exact m → i.Awaits s context m ∧ Monzo.boundsFault? s m = none)
      (Slip s context i) (i.value.div s c.c4) := by
  -- whether the fault is an overflow is known only of a quotient that fails
  have hmeets : Meets (fun _ => True)
      (fun f => f.family = .overflow ∨ Slip s context i f) (i.value.div s c.c4) := by
    refine (Value.meets_div (fun f => .inl) ?_ (hv.tame ?_ ?_)
      (hc.c4_bounded.tame ?_ ?_)).any
    · exact (lt_or_ge (2 ^ 900) s.absurdExponent).imp_left fun hs => .inr (.immense h (.inl hs))
    · exact fun hlarge => .inr (.immense h (.inr (.inl hlarge)))
    · exact fun hlong => .inr (.table h (.inl hlong))
    · exact fun hlarge => .inr (.immense h (.inr (.inr hlarge)))
    · exact fun hlong => .inr (.table h (.inr hlong))
  cases hdiv : i.value.div s c.c4 with
  | ok v =>
    rintro m rfl
    exact ⟨.pitch h hdiv, Value.bounded_of_div hdiv⟩
  | error f =>
    rw [hdiv] at hmeets
    exact hmeets.elim (.relative h hdiv) id

/-- Realization gives a literal that can be written, or gives up, or fails with one of the
faults listed. -/
theorem meets_realize (hc : ∀ c, context = some c → c.WellFormed) (hi : i.IsRegular) :
    Memoized.Meets Realization.IsConcrete (Slip s context i) (i.realize s context) := by
  unfold realize Intonation.realize
  split
  · exact .pure Realization.isConcrete_gaveUp
  · next flavor hl =>
    have hflavor : flavor ∈ Inflection.flavors := hi.flavored _ hl flavor (List.mem_singleton_self _)
    split
    · exact .pure Realization.isConcrete_gaveUp
    · next c =>
      have hrelates : i.RelatesTo (some c) c := ⟨rfl, flavor, hl⟩
      refine (Memoized.Meets.ofExcept (meets_relative hi.bounded (hc c rfl) hrelates)).bind
        fun v hv => ?_
      cases v with
      | real a => exact .pure Realization.isConcrete_gaveUp
      | exact m =>
        obtain ⟨hawaits, hbounded⟩ := hv m rfl
        exact meets_realizePitch hflavor (hc c rfl) hbounded (.residual hawaits)
          (.component hawaits) (fun hcents f => .count hawaits rfl hcents)
          fun hs => .immense hrelates (.inl hs)
  · next flavor hl =>
    have hflavor : flavor ∈ Inflection.flavors := hi.flavored _ hl flavor (List.mem_singleton_self _)
    split
    · exact .pure Realization.isConcrete_gaveUp
    · next m hv =>
      have hawaits : i.Awaits s context m := .interval hl hv
      have hm : m.IsBounded := by
        have hbounded := hi.bounded
        rwa [hv] at hbounded
      exact meets_realizeInterval hflavor hc hm (.residual hawaits) (.component hawaits)
        (fun c hc hcents f => .count hawaits hc hcents) fun hcents f => .bounds hawaits hcents
  · next l hpitch hinterval hl =>
    -- other literals are concrete as they are
    refine .pure ?_
    rintro _ ⟨⟩
    cases l with
    | aspiringInterval flavor => exact absurd rfl (hinterval flavor)
    | aspiringPitch flavor => exact absurd rfl (hpitch flavor)
    | _ => rfl

/-- A value that waits for a name and has a prime beyond the table is not given up. -/
theorem fails_realize {p : Nat} (hc : ∀ c, context = some c → c.WellFormed)
    (h : i.Awaits s context m) (hm : isSpellable m) (hp : p.Prime) (hlarge : tableLimit < p)
    (hdvd : p ∣ m.residual.num.natAbs ∨ p ∣ m.residual.den) :
    (i.realize s context).Fails memo .residualDot := by
  have hcents : m.cents == 0 := by
    simp only [isSpellable, Monzo.isUncorrected, Bool.and_eq_true] at hm
    exact hm.1.1.1
  unfold realize Intonation.realize
  cases h with
  | interval hl hv =>
    rw [hl, hv]
    show (realizeInterval s m _ context).Fails memo .residualDot
    unfold realizeInterval
    rw [if_pos (show m.isUncorrected = true from hcents)]
    exact Memoized.fails_bind_left (fails_spellInterval hp hlarge hdvd hm)
  | @pitch c h hdiv =>
    obtain ⟨rfl, flavor, hl⟩ := h
    -- nothing is counted, so that the value itself is spelled
    obtain ⟨count, hcount, hexact⟩ :=
      ArrowCount.exists_ofCents hcents (hc c rfl).up_finite (hc c rfl).lift_finite
    have hstrip : stripArrows s m c = .ok (.inl ({ m with cents := 0 }, count)) := by
      refine bind_eq_ok.mpr ⟨count, hcount, ?_⟩
      rw [if_pos hexact]
      exact bind_eq_ok.mpr ⟨_, Monzo.checked_eq_ok_iff.mpr
        ⟨Monzo.bounded_uncorrected (Value.bounded_of_div hdiv), rfl⟩, rfl⟩
    have hplain : isSpellable { m with cents := 0 } := by
      simpa [isSpellable, Monzo.isUncorrected, Monzo.isScalar, zero_beq_zero, hcents] using hm
    rw [hl]
    refine Memoized.fails_bind (Memoized.returns_ofExcept.mpr ⟨hdiv, rfl⟩) ?_
    refine Memoized.fails_bind (Memoized.returns_ofExcept.mpr ⟨hstrip, rfl⟩) ?_
    exact Memoized.fails_bind_left
      (fails_spellPitch (m := { m with cents := 0 }) hp hlarge hdvd hplain)

/-- What cannot be realized cannot be written. -/
theorem fails_text {f : Fault} (h : (i.realize s context).Fails memo f) :
    (i.text s context).Fails memo f := Memoized.fails_bind_left h

/-- What is realized or given up is written. -/
theorem exists_text {r : Realization} {memo' : CommaMemo} (hr : r.IsConcrete)
    (h : (i.realize s context).Returns memo r memo') :
    ∃ t, (i.text s context).Returns memo t memo' := by
  cases r with
  | gaveUp reason => exact ⟨_, Memoized.returns_bind.mpr ⟨_, _, h, Memoized.returns_pure.mpr ⟨rfl, rfl⟩⟩⟩
  | realized l =>
    obtain ⟨t, ht⟩ := Literal.exists_text (hr l rfl)
    exact ⟨t, Memoized.returns_bind.mpr ⟨_, _, h, Memoized.returns_ofExcept.mpr ⟨ht, rfl⟩⟩⟩

/-- The context with a ratio for its C4. -/
def withC4 (residual : ℚ) : Context :=
  { up := 1, lift := 5, c4 := .exact { exps := List.replicate 9 0, residual }, title := "" }

/-- The name C4. -/
def nameC4 : Literal := .pitch { nominal := "C" } {}

theorem prime_7927 : Nat.Prime 7927 := by norm_num

/-- Whether a value can be spelled, and what is left of its residual over the first prime beyond
the table. -/
def spellableRest : Value → Bool × Nat
  | .exact m => (isSpellable m, m.residual.num.natAbs % 7927)
  | .real _ => (false, 0)

/-- C4 as a prime beyond the table, once it is broken, waits for a name as that ratio of another
C4. -/
theorem exists_beyondTable : ∃ i memo' m,
    (nameC4.lower {} (some (withC4 7927))).Returns [] (.interval i) memo' ∧
      i.broken.Awaits {} (some (withC4 1)) m ∧ isSpellable m ∧ 7927 ∣ m.residual.num.natAbs := by
  have hrun : (do
      let v ← ((nameC4.lowerValue {} (withC4 7927)).run.run []).1
      let quotient ← v.div {} (withC4 1).c4
      return spellableRest quotient) = .ok (true, 0) := by decide +kernel
  obtain ⟨v, hv, hrun⟩ := bind_eq_ok.mp hrun
  obtain ⟨quotient, hdiv, hrun⟩ := bind_eq_ok.mp hrun
  cases quotient with
  | real a => cases hrun
  | exact m =>
    obtain ⟨hm, hres⟩ : isSpellable m = true ∧ m.residual.num.natAbs % 7927 = 0 :=
      Prod.mk.inj (pure_eq_ok.mp hrun)
    refine ⟨_, _, m, (Literal.lower_returns_iff rfl).mpr ⟨withC4 7927, v, rfl, Prod.ext hv rfl, rfl⟩,
      .pitch ⟨rfl, "", rfl⟩ hdiv, hm, Nat.dvd_of_mod_eq_zero hres⟩

theorem obtained_broken {s : Settings} {q : Quantity} {memo' : CommaMemo} (hl : l.Accepted)
    (h : (l.lower s context).Returns memo q memo') : Quantity.Obtained q.broken :=
  .unary s .broken (.lowered s hl h) rfl

theorem accepted_nameC4 : nameC4.Accepted := ⟨⟨[], rfl⟩, rfl⟩

theorem wellFormed_withC4_one : ∀ c, some (withC4 1) = some c → c.WellFormed := by
  rintro _ ⟨⟩
  exact ⟨by decide +kernel, by decide +kernel, {}, by decide +kernel⟩

end Interval

end Intonation
