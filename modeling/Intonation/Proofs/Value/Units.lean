import Intonation.Proofs.Monzo.Faults
import Intonation.Proofs.Monzo.Group
import Intonation.Proofs.Value.Delegation

/-!
# Time units

The power of the time unit is the type of a value. Sums, remainders, multiples and harmonic sums
are defined for operands of one type and return that type; products, quotients and reciprocals add,
subtract and negate it. Exact and real arithmetic keep to this alike, also where an exact operation
falls back to reals or builds its result from only one of the operands.

An operation on values of one type may still fail: where a bound in force is exceeded, or where an
operand has more components than the table has primes and would have to be factored over them.

## Main definitions

* `MixedOp.NeedsUnits`: the operations that are defined for operands of the same time units
* `Value.Timed`: a value of known time units on which arithmetic fails by its bounds alone
* `Refused`: an operation that is refused as unsupported, unless it overflows before that

## Main statements

* `Value.Timed.add`, `Value.Timed.roundTo` and their like: one lemma for each operation
* `MixedOp.refused_of_time_ne`: different time units are refused
* `MixedOp.tracks_units`: the time units of every result
-/

namespace Intonation

/-- The operations that are defined for operands of the same time units. -/
def MixedOp.NeedsUnits : MixedOp → Prop
  | add | sub | modulo _ | roundTo | lensAdd | lensSub => True
  | mul | div | pow | log | reduce _ | pitchRoundTo => False

/-- Exceeding a bound in force or the range of doubles, or exhausting the table by values that are
too wide for it. -/
def Fault.Bars (wide : Prop) (f : Fault) : Prop :=
  f.family = .overflow ∨ f = .tooLarge ∨ f = .tableExhausted ∧ wide

theorem barring_iff_meets {α : Type} {wide : Prop} {P : α → Prop} {x : Except Fault α} :
    Barring wide P x ↔ Meets P (Fault.Bars wide) x := by
  cases x <;> rfl

/-- A value of known time units on which arithmetic fails by its bounds alone. -/
structure Value.Timed (wide : Prop) (t : ℚ) (v : Value) : Prop where
  time : v.time = t
  tame : v.Tame (Fault.Bars wide)

section
variable {wide : Prop} {s : Settings} {v w : Value} {a b m : Monzo} {x y : Approx} {t u q : ℚ}

namespace Fault.Bars

theorem overflow (f : Fault) (h : f.family = .overflow) : f.Bars wide := .inl h

theorem tooLarge : Fault.tooLarge.Bars wide := .inr (.inl rfl)

end Fault.Bars

/-! ## Real arithmetic -/

namespace Approx

theorem requireUnits_of_time_eq (operation : String) (h : x.time = y.time) :
    requireUnits operation x y = .ok () := if_pos h

theorem requireUnits_of_time_ne (operation : String) (h : x.time ≠ y.time) :
    requireUnits operation x y = .error (.disparateUnits operation) := if_neg h

end Approx

namespace MixedOp

variable (op : MixedOp) (hop : op.NeedsUnits)
include hop

/-- Two exact values meet in exact arithmetic, and all others in real arithmetic. -/
theorem exact_or_apply_eq (s : Settings) (v w : Value) :
    (∃ a b, v = .exact a ∧ w = .exact b) ∨
      op.apply s v w = (op.onReals s v.toApprox w.toApprox).map .real := by
  cases v with
  | exact a =>
    cases w with
    | exact b => exact .inl ⟨a, b, rfl, rfl⟩
    | real y => cases op <;> first | exact .inr rfl | exact hop.elim
  | real x => cases op <;> first | exact .inr rfl | exact hop.elim

/-- Real operands of the same units give a result of these units. -/
theorem barring_onReals (hx : x.time = t) (hy : y.time = t) :
    Barring wide (·.time = t) (op.onReals s x y) := by
  have hunits : ∀ operation, Approx.requireUnits operation x y = .ok () := fun operation =>
    Approx.requireUnits_of_time_eq operation (hx.trans hy.symm)
  -- the reciprocals have one unit, and the reciprocal of what they combine to has the first again
  have hinverse : ∀ operation, Approx.requireUnits operation x.inverse y.inverse = .ok () :=
    fun operation => Approx.requireUnits_of_time_eq operation
      (congrArg Neg.neg (hx.trans hy.symm))
  have hback : ∀ r : ℚ, r = -x.time → -r = t := fun r hr => by rw [hr, neg_neg, hx]
  cases op with
  | add =>
    rw [onReals, Approx.add, hunits]
    exact hx
  | sub =>
    rw [onReals, Approx.sub, hunits]
    exact hx
  | modulo ceiling =>
    rw [onReals, Approx.modulo, hunits]
    show Barring _ _ (if _ then _ else _)
    split <;> exact hx
  | roundTo =>
    rw [onReals, Approx.roundTo, hunits]
    show Barring _ _ (if _ then _ else _)
    split
    · exact hy
    · exact hx
  | lensAdd =>
    rw [onReals, Approx.lensAdd, Approx.add, hinverse]
    exact hback _ rfl
  | lensSub =>
    rw [onReals, Approx.lensSub, Approx.sub, hinverse]
    exact hback _ rfl
  | _ => exact hop.elim

/-- Real operands of different units are refused. -/
theorem exists_onReals_eq (h : x.time ≠ y.time) :
    ∃ operation, op.onReals s x y = .error (.disparateUnits operation) := by
  have hunits : ∀ operation,
      Approx.requireUnits operation x y = .error (.disparateUnits operation) := fun operation =>
    Approx.requireUnits_of_time_ne operation h
  have hinverse : ∀ operation, Approx.requireUnits operation x.inverse y.inverse =
      .error (.disparateUnits operation) := fun operation =>
    Approx.requireUnits_of_time_ne operation (neg_injective.ne h)
  cases op with
  | add => exact ⟨_, by rw [onReals, Approx.add, hunits]; rfl⟩
  | sub => exact ⟨_, by rw [onReals, Approx.sub, hunits]; rfl⟩
  | modulo ceiling => exact ⟨_, by rw [onReals, Approx.modulo, hunits]; rfl⟩
  | roundTo => exact ⟨_, by rw [onReals, Approx.roundTo, hunits]; rfl⟩
  | lensAdd => exact ⟨_, by rw [onReals, Approx.lensAdd, Approx.add, hinverse]; rfl⟩
  | lensSub => exact ⟨_, by rw [onReals, Approx.lensSub, Approx.sub, hinverse]; rfl⟩
  | _ => exact hop.elim

end MixedOp

/-! ## Reciprocals -/

namespace Value

theorem time_of_inverse {r : Value} (h : v.inverse s = .ok r) : r.time = -v.time := by
  cases v with
  | real x =>
    cases h
    rfl
  | exact m =>
    change m.inverse s = _ at h
    unfold Monzo.inverse at h
    split at h
    · cases h
      rfl
    · obtain ⟨n, hn, rfl⟩ := map_eq_ok.mp h
      rw [(Monzo.checked_eq_ok_iff.mp hn).2]
      rfl

/-- A reciprocal needs no factoring, so the number of components does not matter. -/
theorem barring_inverse (hv : v.IsBounded) :
    Barring False (·.time = -v.time) (v.inverse s) := by
  refine (Barring.and_of_ok (P := fun _ => True) ?_ fun r hr => time_of_inverse hr).mono
    fun r hr => hr.2
  cases v with
  | real x => trivial
  | exact m =>
    obtain ⟨u, hbounded⟩ := hv
    have hrest := (Monzo.boundsFault?_eq_none_iff.mp hbounded).2
    show Barring _ _ (m.inverse s)
    unfold Monzo.inverse
    split
    · trivial
    · exact (Monzo.barring_checked_of_not_isNaN False
        (Monzo.vanish_reciprocal (Monzo.vanish_of_bounded hbounded))
        (Double.not_isNaN_neg (Double.isFinite_of_not_exceeds hrest.not_nan hrest.cents_le))).map
          fun _ _ => trivial

end Value

namespace Value.Timed

theorem of_bounded (hv : v.IsBounded) (hwide : v.Sprawling → wide) : Timed wide v.time v :=
  ⟨rfl, hv.tame (fun _ => Fault.Bars.tooLarge) fun h => .inr (.inr ⟨rfl, hwide h⟩)⟩

theorem real (h : x.time = t) : Timed wide t (.real x) := ⟨h, trivial⟩

theorem map_real {z : Except Fault Approx} (h : Barring wide (·.time = t) z) :
    Barring wide (Timed wide t) (z.map .real) := h.map fun _ h => .real h

theorem toApprox_time (h : Timed wide t v) : v.toApprox.time = t := by
  cases v with
  | exact m => exact h.time
  | real x => exact h.time

/-- An operation keeps time units when its exact and its real form do. -/
theorem lift {onExact : Monzo → Monzo → Except Fault Value}
    {onReal : Approx → Approx → Except Fault Approx} {r : ℚ} (hv : Timed wide t v)
    (hw : Timed wide u w)
    (hexact : ∀ a b : Monzo, Timed wide t (.exact a) → Timed wide u (.exact b) →
      Barring wide (Timed wide r) (onExact a b))
    (hreal : ∀ x y : Approx, x.time = t → y.time = u → Barring wide (·.time = r) (onReal x y)) :
    Barring wide (Timed wide r) (Value.lift onExact onReal v w) := by
  have hfallback : Barring wide (Timed wide r) ((onReal v.toApprox w.toApprox).map .real) :=
    map_real (hreal _ _ hv.toApprox_time hw.toApprox_time)
  cases v with
  | exact a =>
    cases w with
    | exact b => exact hexact a b hv hw
    | real y => exact hfallback
  | real x => exact hfallback

/-! ## Exact arithmetic -/

/-- Exact arithmetic on timed values fails by its bounds alone, so their time units are what is
left to know about a result. -/
theorem of_meets {x : Except Fault Value}
    (h : Meets (Value.Tame (Fault.Bars wide)) (Fault.Bars wide) x)
    (htime : ∀ r, x = .ok r → r.time = t) : Barring wide (Timed wide t) x :=
  barring_iff_meets.mpr ((h.and_of_ok htime).mono fun _ hr => ⟨hr.2, hr.1⟩)

protected theorem inverse (hv : Timed wide t v) :
    Barring wide (Timed wide (-t)) (v.inverse s) := by
  have htime : -v.time = -t := congrArg Neg.neg hv.time
  refine of_meets ?_ fun r hr => (time_of_inverse hr).trans htime
  cases v with
  | real x => trivial
  | exact m =>
    show Meets _ _ (m.inverse s)
    unfold Monzo.inverse
    split
    · trivial
    · exact (Monzo.meets_checked_reciprocal Fault.Bars.overflow (.inl Fault.Bars.tooLarge)
        hv.tame).map fun n hn => hn

protected theorem mul (hv : Timed wide t v) (hw : Timed wide u w) :
    Barring wide (Timed wide (t + u)) (v.mul s w) := by
  refine hv.lift hw (fun a b ha hb => ?_) fun x y hx hy => ?_
  · have hmul := Monzo.meets_mul (s := s) Fault.Bars.overflow (.inl Fault.Bars.tooLarge) ha.tame
      hb.tame
    refine of_meets (hmul.map fun n hn => hn) fun r hr => ?_
    obtain ⟨n, hn, rfl⟩ := map_eq_ok.mp hr
    exact (Monzo.parts_of_mul hn).2.2.1.trans (congrArg₂ _ ha.time hb.time)
  · exact congrArg₂ _ hx hy

protected theorem div (hv : Timed wide t v) (hw : Timed wide u w) :
    Barring wide (Timed wide (t - u)) (v.div s w) := by
  refine hv.lift hw (fun a b ha hb => ?_) fun x y hx hy => ?_
  · have htimes : a.time - b.time = t - u := congrArg₂ _ ha.time hb.time
    refine of_meets (Value.meets_div (v := .exact a) (w := .exact b) Fault.Bars.overflow
      (.inl Fault.Bars.tooLarge) ha.tame hb.tame) fun r hr => ?_
    cases r with
    | exact n => exact (Monzo.parts_of_div hr).2.2.1.trans htimes
    | real x =>
      -- the quotient by zero is that of the two reals
      change a.div s b = _ at hr
      unfold Monzo.div at hr
      split at hr
      · cases hr
        exact htimes
      · obtain ⟨n, -, hn⟩ := map_eq_ok.mp hr
        cases hn
  · exact congrArg₂ _ hx hy

section
variable (ha : Timed wide t (.exact a)) (hb : Timed wide t (.exact b))
include ha hb

theorem requireUnits (operation : String) : Monzo.requireUnits operation a b = .ok () :=
  if_pos (ha.time.trans hb.time.symm)

/-- A ratio over the primes of both operands takes the time units of the first. -/
theorem ratioResult (q : ℚ) : Barring wide (Timed wide t) (Monzo.ratioResult s a b q) := by
  have hcount : Fault.tableExhausted.Bars wide ∨
      max a.components b.components ≤ Prime.tableSize := by
    rcases ha.tame.components_le with hwide | hle
    · exact .inl hwide
    · exact hb.tame.components_le.imp_right (max_le hle)
  refine (barring_iff_meets.mpr (Monzo.meets_ofRatioOver (q := q) Fault.Bars.overflow
    (.inl Fault.Bars.tooLarge) (.inl Fault.Bars.tooLarge) hcount)).bind fun m hm => ?_
  obtain ⟨hm, -⟩ := hm
  exact ⟨ha.time, ⟨hm.exps_le, hm.bits_le, hm.components_le, hm.vanish, hm.finite⟩⟩

end

/-! ## Operations on values of the same units -/

section
variable (hv : Timed wide t v) (hw : Timed wide t w)
include hv hw

/-- An operation keeps to the units of its operands when it does so for exact operands. -/
theorem apply (op : MixedOp) (hop : op.NeedsUnits)
    (hexact : ∀ a b : Monzo, Timed wide t (.exact a) → Timed wide t (.exact b) →
      Barring wide (Timed wide t) (op.apply s (.exact a) (.exact b))) :
    Barring wide (Timed wide t) (op.apply s v w) := by
  rcases op.exact_or_apply_eq hop s v w with ⟨a, b, rfl, rfl⟩ | hreal
  · exact hexact a b hv hw
  · rw [hreal]
    exact map_real (op.barring_onReals hop hv.toApprox_time hw.toApprox_time)

protected theorem add : Barring wide (Timed wide t) (v.add s w) := by
  refine apply hv hw .add trivial fun a b ha hb => ?_
  show Barring _ _ (a.add s b)
  rw [Monzo.add, ha.requireUnits hb]
  show Barring _ _ (if _ then _ else _)
  split
  · exact ha.ratioResult hb _
  · exact map_real (MixedOp.barring_onReals (s := s) .add trivial ha.time hb.time)

protected theorem sub : Barring wide (Timed wide t) (v.sub s w) := by
  refine apply hv hw .sub trivial fun a b ha hb => ?_
  show Barring _ _ (a.sub s b)
  rw [Monzo.sub, ha.requireUnits hb]
  show Barring _ _ (if _ then _ else _)
  split
  · exact ha.ratioResult hb _
  · exact map_real (MixedOp.barring_onReals (s := s) .sub trivial ha.time hb.time)

protected theorem modulo (ceiling : Bool) :
    Barring wide (Timed wide t) (v.modulo s w ceiling) := by
  refine apply hv hw (.modulo ceiling) trivial fun a b ha hb => ?_
  have hreal : Barring wide (Timed wide t) ((a.toApprox.modulo b.toApprox ceiling).map .real) :=
    map_real (MixedOp.barring_onReals (s := s) (.modulo ceiling) trivial ha.time hb.time)
  show Barring _ _ (a.modulo s b ceiling)
  unfold Monzo.modulo
  split
  · rw [ha.requireUnits hb]
    show Barring _ _ (if _ then _ else _)
    split
    · exact hreal
    · exact ha.ratioResult hb _
  · exact hreal

/-- The nearest multiple is built from the second operand, or, where there is none, it is no number
in the units of the first. -/
protected theorem roundTo (hs : s.Valid) : Barring wide (Timed wide t) (v.roundTo s w) := by
  refine apply hv hw .roundTo trivial fun a b ha hb => ?_
  show Barring _ _ (a.roundTo s b)
  rw [Monzo.roundTo, ha.requireUnits hb]
  show Barring _ _ (a.div s b >>= _)
  refine (ha.div hb).bind fun quotient _ => ?_
  split
  · exact real ha.time
  · next n _ =>
    refine (barring_iff_meets.mpr (Monzo.meets_ofRatioOver (q := n) Fault.Bars.overflow
      (.inl Fault.Bars.tooLarge) (.inl Fault.Bars.tooLarge)
      (.inr hs.components_le))).bind fun factor hbuilt => ?_
    obtain ⟨hfactor, -, hparts⟩ := hbuilt
    have hscalar : Timed wide 0 (.exact factor) := ⟨by rw [hparts]; rfl, hfactor⟩
    have hmul := hb.mul (s := s) hscalar
    rwa [add_zero] at hmul

protected theorem lensAdd : Barring wide (Timed wide t) (v.lensAdd s w) := by
  refine apply hv hw .lensAdd trivial fun a b ha hb => ?_
  refine ha.inverse.bind fun c hc => hb.inverse.bind fun d hd => (hc.add hd).bind fun r hr => ?_
  rw [← neg_neg t]
  exact hr.inverse

protected theorem lensSub : Barring wide (Timed wide t) (v.lensSub s w) := by
  refine apply hv hw .lensSub trivial fun a b ha hb => ?_
  refine ha.inverse.bind fun c hc => hb.inverse.bind fun d hd => (hc.sub hd).bind fun r hr => ?_
  rw [← neg_neg t]
  exact hr.inverse

end

end Value.Timed

/-! ## Operands of different units -/

/-- An operation that is refused as unsupported, unless it overflows before that. -/
def Refused {α : Type} (x : Except Fault α) : Prop :=
  Meets (fun _ => False)
    (fun f => f.family = .unsupported ∨ f.family = .overflow ∨ f = .tooLarge) x

namespace Refused

theorem bind {α β : Type} {P : α → Prop} {z : Except Fault α} {f : α → Except Fault β}
    (h : Barring False P z) (hf : ∀ r, P r → Refused (f r)) : Refused (z >>= f) := by
  cases z with
  | error e => exact .inr (h.imp_right fun hbars => hbars.elim id fun hwide => hwide.2.elim)
  | ok r => exact hf r h

theorem disparateUnits {α : Type} (operation : String) :
    Refused (.error (.disparateUnits operation) : Except Fault α) := .inl rfl

end Refused

namespace Value

section
variable (h : v.time ≠ w.time)
include h

/-- An operation refuses different units when it does so for exact operands. -/
theorem refused_apply (op : MixedOp) (hop : op.NeedsUnits)
    (hexact : ∀ a b : Monzo, v = .exact a → w = .exact b →
      Refused (op.apply s (.exact a) (.exact b))) : Refused (op.apply s v w) := by
  rcases op.exact_or_apply_eq hop s v w with ⟨a, b, rfl, rfl⟩ | hreal
  · exact hexact a b rfl rfl
  · have hne : v.toApprox.time ≠ w.toApprox.time := by cases v <;> cases w <;> exact h
    obtain ⟨operation, herror⟩ := op.exists_onReals_eq hop (s := s) hne
    rw [hreal, herror]
    exact .disparateUnits operation

theorem refused_add : Refused (v.add s w) := by
  refine refused_apply h .add trivial ?_
  rintro a b rfl rfl
  show Refused (a.add s b)
  rw [Monzo.add, Monzo.requireUnits, if_neg (by exact h)]
  exact .disparateUnits _

theorem refused_sub : Refused (v.sub s w) := by
  refine refused_apply h .sub trivial ?_
  rintro a b rfl rfl
  show Refused (a.sub s b)
  rw [Monzo.sub, Monzo.requireUnits, if_neg (by exact h)]
  exact .disparateUnits _

/-- Only ratios meet a check of their own; all others leave it to real arithmetic. -/
theorem refused_modulo (ceiling : Bool) : Refused (v.modulo s w ceiling) := by
  refine refused_apply h (.modulo ceiling) trivial ?_
  rintro a b rfl rfl
  show Refused (a.modulo s b ceiling)
  unfold Monzo.modulo
  split
  · rw [Monzo.requireUnits, if_neg (by exact h)]
    exact .disparateUnits _
  · rw [Approx.modulo, Approx.requireUnits_of_time_ne _ (by exact h)]
    exact .disparateUnits _

theorem refused_roundTo : Refused (v.roundTo s w) := by
  refine refused_apply h .roundTo trivial ?_
  rintro a b rfl rfl
  show Refused (a.roundTo s b)
  rw [Monzo.roundTo, Monzo.requireUnits, if_neg (by exact h)]
  exact .disparateUnits _

/-- The reciprocals of values of different units have different units. -/
theorem refused_reciprocals {onTotal : Value → Value → Except Fault Value}
    {f : Value → Except Fault Value} (hv : v.IsBounded) (hw : w.IsBounded)
    (htotal : ∀ c d : Value, c.time ≠ d.time → Refused (onTotal c d)) :
    Refused (do
      let total ← onTotal (← v.inverse s) (← w.inverse s)
      f total) := by
  refine .bind (barring_inverse hv) fun c hc => .bind (barring_inverse hw) fun d hd => ?_
  refine Meets.bind (htotal c d ?_) fun _ hr => hr.elim
  rw [hc, hd]
  exact neg_injective.ne h

section
variable (hv : v.IsBounded) (hw : w.IsBounded)
include hv hw

theorem refused_lensAdd : Refused (v.lensAdd s w) := by
  refine refused_apply h .lensAdd trivial ?_
  rintro a b rfl rfl
  exact refused_reciprocals h hv hw fun c d => refused_add

theorem refused_lensSub : Refused (v.lensSub s w) := by
  refine refused_apply h .lensSub trivial ?_
  rintro a b rfl rfl
  exact refused_reciprocals h hv hw fun c d => refused_sub

end

end

end Value

/-! ## All operations -/

namespace MixedOp

/-- Operands of different units are refused by every operation that needs the same. -/
theorem refused_of_time_ne {op : MixedOp} (hop : op.NeedsUnits) (h : v.time ≠ w.time)
    (hv : v.IsBounded) (hw : w.IsBounded) : Refused (op.apply s v w) := by
  cases op with
  | add => exact Value.refused_add h
  | sub => exact Value.refused_sub h
  | modulo ceiling => exact Value.refused_modulo h ceiling
  | roundTo => exact Value.refused_roundTo h
  | lensAdd => exact Value.refused_lensAdd h hv hw
  | lensSub => exact Value.refused_lensSub h hv hw
  | _ => exact hop.elim

/-- Operands of the same units give a result of these units. -/
theorem timed_of_time_eq (hs : s.Valid) {op : MixedOp} (hop : op.NeedsUnits)
    (hv : v.Timed wide t) (hw : w.Timed wide t) : Barring wide (Value.Timed wide t)
      (op.apply s v w) := by
  cases op with
  | add => exact hv.add hw
  | sub => exact hv.sub hw
  | modulo ceiling => exact hv.modulo hw ceiling
  | roundTo => exact hv.roundTo hw hs
  | lensAdd => exact hv.lensAdd hw
  | lensSub => exact hv.lensSub hw
  | _ => exact hop.elim

/-- Units are tracked alike for exact and real operands, and for one of each. A sum, difference,
remainder, nearest multiple, harmonic sum or harmonic difference is refused as unsupported when the
units of its operands differ, and otherwise it has their common units; products, quotients and
reciprocals have the sum, the difference and the opposite of the units. The exceptions are an
overflow, and a table exhausted by an operand of more components than the table has primes. -/
theorem tracks_units (hs : s.Valid) (hv : v.IsBounded) (hw : w.IsBounded) :
    (∀ op : MixedOp, op.NeedsUnits →
      (v.time ≠ w.time → Refused (op.apply s v w)) ∧
      (v.time = w.time →
        Barring (v.Sprawling ∨ w.Sprawling) (·.time = v.time) (op.apply s v w))) ∧
      Barring (v.Sprawling ∨ w.Sprawling) (·.time = v.time + w.time) (mul.apply s v w) ∧
      Barring (v.Sprawling ∨ w.Sprawling) (·.time = v.time - w.time) (div.apply s v w) ∧
      Barring False (·.time = -v.time) (v.inverse s) := by
  have htv : v.Timed (v.Sprawling ∨ w.Sprawling) v.time := .of_bounded hv .inl
  have htw : w.Timed (v.Sprawling ∨ w.Sprawling) w.time := .of_bounded hw .inr
  refine ⟨fun op hop => ⟨fun h => refused_of_time_ne hop h hv hw, fun h => ?_⟩,
    (htv.mul htw).mono fun _ hr => hr.time, (htv.div htw).mono fun _ hr => hr.time,
    Value.barring_inverse hv⟩
  rw [← h] at htw
  exact (timed_of_time_eq hs hop htv htw).mono fun _ hr => hr.time

/-- The harmonic sum of three halves of a hertz and zero hertz, which falls back to reals. -/
theorem tracks_units_zero :
    let fifth : Value := .exact { time := -1, exps := [-1, 1] }
    let zero : Value := .exact { time := -1, exps := [], residual := 0 }
    ∃ r, lensAdd.apply {} fifth zero = .ok (.real r) ∧ r.time = -1 := by
  intro fifth zero
  have hfifth : fifth.IsBounded := ⟨{}, by decide +kernel⟩
  have hzero : zero.IsBounded := ⟨{}, by decide +kernel⟩
  have htime := ((tracks_units Settings.valid_default hfifth hzero).1 lensAdd trivial).2 rfl
  have hreal : (lensAdd.apply {} fifth zero).map Value.isExact = .ok false := by decide +kernel
  obtain ⟨r, hr, hexact⟩ := map_eq_ok.mp hreal
  rw [hr] at htime
  cases r with
  | exact m => cases hexact
  | real r => exact ⟨r, hr, htime⟩

/-- A value cannot be taken over more primes than the table has. -/
theorem mul_of_components (ha : Prime.tableSize < a.components)
    (hlt : b.components < a.components) :
    mul.apply s (.exact a) (.exact b) = .error .tableExhausted := by
  have hwide : a.widen s b.components = .ok a := if_neg hlt.not_gt
  have hnarrow : b.widen s a.components = .error .tableExhausted := Monzo.widen_of_lt hlt ha
  show (Monzo.mul s a b).map Value.exact = _
  rw [Monzo.mul, Monzo.align, hwide, hnarrow]
  rfl

/-- The product of one over more components than the table has primes and of one over nine fails,
and not by overflow. -/
theorem mul_beyond_table :
    let wide : Monzo := { exps := List.replicate 1001 0 }
    let narrow : Monzo := { exps := List.replicate 9 0 }
    Monzo.checked {} wide = .ok wide ∧ Monzo.checked {} narrow = .ok narrow ∧
      wide.time = narrow.time ∧
      mul.apply {} (.exact wide) (.exact narrow) = .error .tableExhausted ∧
      Fault.tableExhausted.family ≠ .overflow := by
  intro wide narrow
  have hwide : wide.components = 1001 := List.length_replicate
  have hnarrow : narrow.components = 9 := List.length_replicate
  refine ⟨Monzo.unity_eq (s := {}) (by decide) 1001, Monzo.unity_eq (s := {}) (by decide) 9, rfl,
    mul_of_components ?_ ?_, by decide⟩
  · rw [hwide]
    decide
  · rw [hwide, hnarrow]
    decide

end MixedOp
end

end Intonation
