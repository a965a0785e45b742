import Intonation.Interval.Quantity
import Intonation.Proofs.Literal.Flavors
import Intonation.Proofs.Literal.Lowering

/-!
# Quantities that a program obtains

A program lowers literals and combines what it gets by operators, in any contexts and under any
settings on the way. What it obtains is regular: the value is within the bounds that were in force
when it was made, and a literal or a placeholder carries known comma flavors.

## Main definitions

* `Regular`: a bounded value and a literal with known flavors
* `Quantity.Unary`, `Quantity.Binary`: the operators
* `Quantity.Obtained`: what lowering and operators give

## Main statements

* `Quantity.isRegular_unary`, `Quantity.isRegular_binary`: every operator keeps quantities regular
* `Quantity.isRegular_of_lower`: what is lowered is regular
* `Quantity.Obtained.regular`: whatever is obtained is regular
-/

namespace Intonation

/-- A value within some bounds, and a literal with known comma flavors. -/
structure Regular (v : Value) (l : Option Literal) : Prop where
  bounded : v.IsBounded
  flavored : Literal.Flavored? l

/-- A regular interval. -/
def Interval.IsRegular (i : Interval) : Prop := Regular i.value i.literal

/-- A regular val. -/
def Val.IsRegular (v : Val) : Prop := Regular v.value v.literal

/-- A regular interval or val. -/
def Quantity.IsRegular (q : Quantity) : Prop := Regular q.value q.literal

open Literal in
theorem Val.isRegular_make {u e : Value} {l : Option Literal} (hu : u.IsBounded)
    (hl : Flavored? l) : Ensures IsRegular (make u e l) := by
  unfold make
  split
  · exact ⟨hu, hl.within _⟩
  · trivial

namespace Interval
open Literal

variable {s : Settings} {i a b : Interval} {v : Value} {l : Option Literal} {d : Domain}
  {m : Metadata}

theorem isRegular_make (hv : v.IsBounded) (hl : Flavored? l) :
    Ensures IsRegular (make v d l m) := by
  unfold make
  split
  · trivial
  · exact ⟨hv, hl.within d⟩

theorem isRegular_derive (hv : v.IsBounded) (hl : Flavored? l) : (i.derive v l).IsRegular :=
  ⟨hv, hl.within _⟩

/-! ## Unary operators -/

theorem isRegular_neg (hi : i.IsRegular) : Ensures IsRegular (i.neg s) := by
  unfold neg
  extract_lets finish
  have hfinish : ∀ v, v.IsBounded → Ensures IsRegular (finish v) := fun v hv =>
    isRegular_derive hv (hi.flavored.bind fun _ => flavored_neg)
  split
  · exact Value.isBounded_neg.bind hfinish
  · exact Value.isBounded_inverse.bind hfinish

theorem isRegular_abs (hi : i.IsRegular) : Ensures IsRegular (i.abs s) := by
  unfold abs
  extract_lets finish
  have hfinish : ∀ v, v.IsBounded → Ensures IsRegular (finish v) := fun v hv =>
    isRegular_derive hv (hi.flavored.bind fun _ => flavored_abs)
  split
  · exact Value.isBounded_abs.bind hfinish
  · exact Value.isBounded_pitchAbs.bind hfinish

theorem isRegular_asDomain (hi : i.IsRegular) : Ensures IsRegular (i.asDomain d) :=
  isRegular_make hi.bounded hi.flavored

/-- Without its spelling a named interval waits to be spelled in the default flavor. -/
theorem isRegular_broken (hi : i.IsRegular) : i.broken.IsRegular := by
  have hdefault : ∀ flavor ∈ [""], flavor ∈ Inflection.flavors := by decide
  refine isRegular_derive hi.bounded (hi.flavored.bind fun l hl => ?_)
  split
  · exact .some hdefault
  · exact .some hdefault
  · exact .none
  · exact .some hl

theorem isRegular_inverse (hi : i.IsRegular) : Ensures Quantity.IsRegular (i.inverse s) := by
  have hliteral : Flavored? (i.literal.bind Literal.invert) :=
    hi.flavored.bind fun _ _ => flavored_invert
  unfold inverse
  extract_lets literal
  split
  · exact Value.isBounded_inverse.bind fun _ hv => isRegular_derive hv hliteral
  · exact Value.isBounded_geometricInverse.bind fun _ hv =>
      (Val.isRegular_make hv hliteral).bind fun _ hw => hw

/-! ## Sums -/

theorem isRegular_add (ha : a.IsRegular) (hb : b.IsRegular) :
    Ensures IsRegular (a.add s b) := by
  unfold add
  refine Ensures.bind_any fun _ => ?_
  refine (flavored_combine (fun _ _ => flavored_add) ha.flavored hb.flavored).bind fun l hl => ?_
  extract_lets finish
  have hfinish : ∀ v, v.IsBounded → Ensures IsRegular (finish v) := fun v hv =>
    isRegular_make hv (flavored_orRespelled ha.flavored hl)
  split
  · exact Value.isBounded_add.bind hfinish
  · exact Value.isBounded_mul.bind hfinish

theorem isRegular_sub (ha : a.IsRegular) (hb : b.IsRegular) :
    Ensures IsRegular (a.sub s b) := by
  unfold sub
  refine Ensures.bind_any fun _ => ?_
  refine (flavored_combine (fun _ _ => flavored_sub) ha.flavored hb.flavored).bind fun l hl => ?_
  extract_lets finish
  have hfinish : ∀ v, v.IsBounded → Ensures IsRegular (finish v) := fun v hv =>
    isRegular_make hv (flavored_orRespelled ha.flavored hl)
  split
  · exact Value.isBounded_sub.bind hfinish
  · exact Value.isBounded_div.bind hfinish

/-- The operand that pairs to zero with itself gives way to the other one. -/
theorem isBounded_lens {op : Value → Value → Except Fault Value} {v w : Value} (hv : v.IsBounded)
    (hw : w.IsBounded) : Ensures Value.IsBounded (Value.lens s op v w) := by
  unfold Value.lens
  refine Ensures.bind_any fun x => ?_
  split
  · exact hv
  · refine Ensures.bind_any fun y => ?_
    split
    · exact hw
    · exact Ensures.bind_any fun x => Ensures.bind_any fun y => Ensures.bind_any fun total =>
        Value.isBounded_geometricInverse

theorem isRegular_lensAdd (ha : a.IsRegular) (hb : b.IsRegular) :
    Ensures IsRegular (a.lensAdd s b) := by
  unfold lensAdd
  refine Ensures.bind_any fun _ => ?_
  refine (flavored_combine (fun _ _ => flavored_lensAdd) ha.flavored hb.flavored).bind fun l hl => ?_
  extract_lets finish
  have hfinish : ∀ v, v.IsBounded → Ensures IsRegular (finish v) := fun v hv =>
    isRegular_make hv hl
  split
  · exact Value.isBounded_lensAdd.bind hfinish
  · exact (isBounded_lens ha.bounded hb.bounded).bind hfinish

theorem isRegular_lensSub (ha : a.IsRegular) (hb : b.IsRegular) :
    Ensures IsRegular (a.lensSub s b) := by
  unfold lensSub
  refine Ensures.bind_any fun _ => ?_
  refine (flavored_combine (fun _ _ => flavored_lensSub) ha.flavored hb.flavored).bind fun l hl => ?_
  extract_lets finish
  have hfinish : ∀ v, v.IsBounded → Ensures IsRegular (finish v) := fun v hv =>
    isRegular_make hv hl
  split
  · exact Value.isBounded_lensSub.bind hfinish
  · exact (isBounded_lens ha.bounded hb.bounded).bind hfinish

/-- An operator with the operands the other way around. -/
theorem isRegular_favor {op : Interval → Interval → Except Fault Interval}
    (h : Ensures IsRegular (op b a)) : Ensures IsRegular (do
      let result ← op b a
      return { result with metadata := result.metadata.favor a.metadata b.metadata }) :=
  h.bind fun _ hresult => hresult

/-! ## Products -/

theorem isRegular_scaled {scalar : Interval} (hi : i.IsRegular) (hl : Flavored? l) :
    Ensures IsRegular (scaled s i scalar l m) := by
  unfold scaled
  extract_lets finish
  have hfinish : ∀ v, v.IsBounded → Ensures IsRegular (finish v) := fun v hv =>
    isRegular_make hv (flavored_renamed hi.flavored hl)
  split
  · exact (Monzo.isBounded_exact Monzo.isBounded_checked).bind hfinish
  · exact Value.isBounded_pow.bind hfinish

theorem isRegular_mul (ha : a.IsRegular) (hb : b.IsRegular) : Ensures IsRegular (a.mul s b) := by
  unfold mul
  extract_lets product
  have hproduct : Ensures IsRegular (product ()) := by
    refine (flavored_combine (fun _ _ => flavored_mul) ha.flavored hb.flavored).bind fun l hl => ?_
    split
    · exact isRegular_scaled hb hl
    · split
      · exact isRegular_scaled ha hl
      · exact Value.isBounded_mul.bind fun v hv => isRegular_make hv hl
  split
  · trivial
  · exact hproduct

theorem isRegular_div (ha : a.IsRegular) (hb : b.IsRegular) : Ensures IsRegular (a.div s b) := by
  unfold div
  refine (flavored_combine (fun _ _ ha _ => flavored_div ha) ha.flavored hb.flavored).bind
    fun l hl => ?_
  split
  · exact Ensures.bind_any fun _ => Value.isBounded_log.bind fun v hv => isRegular_make hv hl
  · split
    · exact Ensures.bind_any fun x => Value.isBounded_pow.bind fun v hv =>
        isRegular_make hv (flavored_renamed ha.flavored hl)
    · exact Value.isBounded_div.bind fun v hv => isRegular_make hv hl

theorem isRegular_ofSteps {steps : ℚ} : Ensures IsRegular (ofSteps s steps m) :=
  Monzo.isBounded_ofRatio.bind fun _ hm => ⟨hm, (Flavored?.some flavored_ofRatio).within _⟩

theorem isRegular_dot : Ensures IsRegular (a.dot s b) :=
  Ensures.bind_any fun _ => isRegular_ofSteps

theorem isRegular_dotVal {v : Val} : Ensures IsRegular (i.dotVal s v) :=
  Ensures.bind_any fun _ => Ensures.bind_any fun _ => isRegular_ofSteps

/-! ## Powers, remainders and rounding -/

theorem isRegular_pow : Ensures IsRegular (a.pow s b) :=
  Ensures.bind_any fun _ => Value.isBounded_pow.bind fun _ hv =>
    isRegular_make hv (flavored_combine? fun _ _ => flavored_pow)

theorem isRegular_ipow : Ensures IsRegular (a.ipow s b) :=
  Ensures.bind_any fun _ => Ensures.bind_any fun _ => Value.isBounded_pow.bind fun _ hv =>
    isRegular_make hv (flavored_combine? fun _ _ => flavored_pow)

theorem isRegular_log : Ensures IsRegular (a.log s b) :=
  Ensures.bind_any fun _ => Value.isBounded_log.bind fun _ hv =>
    isRegular_make hv (flavored_combine? fun _ _ => flavored_throughValues)

theorem isRegular_reduce {ceiling : Bool} : Ensures IsRegular (a.reduce s b ceiling) :=
  Ensures.bind_any fun _ => Value.isBounded_reduce.bind fun _ hv =>
    isRegular_make hv (flavored_combine? fun _ _ => flavored_throughValues)

theorem isRegular_modulo {ceiling : Bool} (ha : a.IsRegular) (hb : b.IsRegular) :
    Ensures IsRegular (a.modulo s b ceiling) := by
  unfold modulo
  refine Ensures.bind_any fun _ => ?_
  refine (flavored_combine (fun _ _ _ _ => flavored_modulo) ha.flavored hb.flavored).bind
    fun l hl => ?_
  extract_lets finish
  have hfinish : ∀ v, v.IsBounded → Ensures IsRegular (finish v) := fun v hv =>
    isRegular_make hv hl
  split
  · exact Value.isBounded_modulo.bind hfinish
  · exact Value.isBounded_reduce.bind hfinish

theorem isRegular_roundTo (ha : a.IsRegular) (hb : b.IsRegular) :
    Ensures IsRegular (a.roundTo s b) := by
  unfold roundTo
  refine Ensures.bind_any fun _ => ?_
  refine (flavored_combine (fun _ _ _ _ => flavored_roundTo) ha.flavored hb.flavored).bind
    fun l hl => ?_
  extract_lets finish
  have hfinish : ∀ v, v.IsBounded → Ensures IsRegular (finish v) := fun v hv =>
    isRegular_make hv hl
  split
  · exact Value.isBounded_roundTo.bind hfinish
  · exact Value.isBounded_pitchRoundTo.bind hfinish

theorem isRegular_pitchRoundTo : Ensures IsRegular (a.pitchRoundTo s b) := by
  refine Ensures.bind_any fun _ => ?_
  split
  · trivial
  · exact Value.isBounded_pitchRoundTo.bind fun v hv =>
      isRegular_make hv (flavored_combine? fun _ _ => flavored_throughValues)

theorem isRegular_gcd : Ensures IsRegular (a.gcd s b) :=
  Ensures.bind_any fun _ => Value.isBounded_gcd.bind fun _ hv =>
    isRegular_make hv (flavored_combine? fun _ _ => flavored_throughValues)

theorem isRegular_lcm : Ensures IsRegular (a.lcm s b) :=
  Ensures.bind_any fun _ => Value.isBounded_lcm.bind fun _ hv =>
    isRegular_make hv (flavored_combine? fun _ _ => flavored_throughValues)

/-! ## Crossing domains -/

theorem isRegular_backslash : Ensures IsRegular (a.backslash s b) := by
  have hdivision : ∀ v w : Value, Flavored? (divisionLiteral? v w) := by
    intro v w
    unfold divisionLiteral?
    split
    · exact .ite (.plain rfl) .none
    · exact .none
  unfold backslash
  split
  · trivial
  · exact Ensures.bind_any fun _ => Ensures.bind_any fun octave => Ensures.bind_any fun ratio =>
      Monzo.isBounded_pow.bind fun v hv => isRegular_make hv (hdivision _ _)

theorem isRegular_project : Ensures IsRegular (a.project s b) :=
  Value.isBounded_project.bind fun _ hv =>
    isRegular_make hv (flavored_combine? fun _ _ => flavored_project)

theorem isBounded_moveValue {c : Context} {arrow : Arrow} :
    Ensures Value.IsBounded (arrow.moveValue s c v) := by
  refine Ensures.bind_any fun inflection => ?_
  cases arrow with
  | up | lift => exact Value.isBounded_mul
  | down | drop => exact Value.isBounded_div

/-- The arrows of an interval do not change its name. -/
theorem isRegular_move {c : Context} {arrow : Arrow} (hi : i.IsRegular) :
    Ensures IsRegular (i.move s c arrow) := by
  have harrow : ∀ l : Literal, l.Flavored → Flavored? (l.intervalWithArrow? arrow) := by
    intro l hl
    unfold intervalWithArrow?
    split
    · exact .some hl
    · exact .some hl
    · exact .plain rfl
    · exact .none
  exact isBounded_moveValue.bind fun _ hv => isRegular_derive hv (hi.flavored.bind harrow)

end Interval

namespace Val
open Literal

variable {s : Settings} {v w : Val}

theorem isRegular_neg (hv : v.IsRegular) : Ensures IsRegular (v.neg s) :=
  Value.isBounded_inverse.bind fun _ hu =>
    isRegular_make hu (hv.flavored.bind fun _ => flavored_neg)

theorem isRegular_inverse : Ensures Interval.IsRegular (v.inverse s) :=
  Value.isBounded_geometricInverse.bind fun _ hu => ⟨hu, Flavored?.none.within .logarithmic⟩

theorem isRegular_abs : Ensures IsRegular (v.abs s) :=
  Value.isBounded_pitchAbs.bind fun _ hu => isRegular_make hu .none

theorem isRegular_add (hv : v.IsRegular) (hw : w.IsRegular) : Ensures IsRegular (v.add s w) :=
  Ensures.bind_any fun _ => Value.isBounded_mul.bind fun _ hu =>
    (flavored_combine (fun _ _ => flavored_add) hv.flavored hw.flavored).bind fun _ hl =>
      isRegular_make hu hl

theorem isRegular_sub (hv : v.IsRegular) (hw : w.IsRegular) : Ensures IsRegular (v.sub s w) :=
  Ensures.bind_any fun _ => Value.isBounded_div.bind fun _ hu =>
    (flavored_combine (fun _ _ => flavored_sub) hv.flavored hw.flavored).bind fun _ hl =>
      isRegular_make hu hl

theorem isRegular_mul {i : Interval} (hv : v.IsRegular) (hi : i.IsRegular) :
    Ensures IsRegular (v.mul s i) := by
  refine Ensures.bind_any fun _ => ?_
  split
  · exact (Monzo.isBounded_exact Monzo.isBounded_checked).bind fun _ hu => isRegular_make hu .none
  · exact Value.isBounded_pow.bind fun _ hu =>
      (flavored_combine (fun _ _ => flavored_mul) hv.flavored hi.flavored).bind fun _ hl =>
        isRegular_make hu hl

theorem isRegular_div {i : Interval} : Ensures IsRegular (v.div s i) :=
  Ensures.bind_any fun _ => Ensures.bind_any fun _ => Value.isBounded_pow.bind fun _ hu =>
    isRegular_make hu .none

theorem isRegular_move {c : Context} {arrow : Arrow} (hv : v.IsRegular) :
    Ensures IsRegular (v.move s c arrow) := by
  have harrow : ∀ l : Literal, l.Flavored → Flavored? (l.valWithArrow? arrow) := by
    intro l _
    unfold valWithArrow?
    split
    · exact .plain rfl
    · exact .none
  exact (Interval.isBounded_moveValue (v := v.value)).bind fun _ hu =>
    isRegular_make hu (hv.flavored.bind harrow)

end Val

namespace Quantity

variable {s : Settings} {q r : Quantity}

/-! ## Operators -/

/-- The operators on one quantity. -/
inductive Unary
  | neg
  | abs
  | inverse
  | broken
  | asDomain (d : Domain)
  | move (c : Context) (arrow : Arrow)

/-- The result of an operator on one quantity; only intervals have another domain. -/
def Unary.apply (s : Settings) (q : Quantity) : Unary → Except Fault Quantity
  | neg => q.neg s
  | abs => q.abs s
  | inverse => q.inverse s
  | broken => .ok q.broken
  | asDomain d =>
    match q with
    | interval i => (i.asDomain d).map interval
    | val v => .ok (val v)
  | move c arrow => q.move s c arrow

/-- The operators on two quantities. -/
inductive Binary
  | add
  | sub
  | lsub
  | mul
  | div
  | ldiv
  | dot
  | modulo (ceiling : Bool)
  | reduce (ceiling : Bool)
  | pow
  | ipow
  | log
  | lensAdd
  | lensSub
  | roundTo
  | pitchRoundTo
  | gcd
  | lcm
  | backslash
  | project

/-- The result of an operator on two quantities, which most take to be intervals. -/
def Binary.apply (s : Settings) (q r : Quantity) : Binary → Except Fault Quantity
  | add => q.add s r
  | sub => q.sub s r
  | mul => q.mul s r
  | div => q.div s r
  | dot => (q.dot s r).map interval
  | modulo ceiling => q.modulo s r ceiling
  | lsub => withinDomain "subtraction" (Interval.lsub s) q r
  | ldiv => withinDomain "division" (Interval.ldiv s) q r
  | reduce ceiling => withinDomain "reduction" (fun a b => a.reduce s b ceiling) q r
  | pow => withinDomain "exponentiation" (Interval.pow s) q r
  | ipow => withinDomain "root taking" (Interval.ipow s) q r
  | log => withinDomain "logarithm" (Interval.log s) q r
  | lensAdd => withinDomain "harmonic addition" (Interval.lensAdd s) q r
  | lensSub => withinDomain "harmonic subtraction" (Interval.lensSub s) q r
  | roundTo => withinDomain "rounding" (Interval.roundTo s) q r
  | pitchRoundTo => withinDomain "exponential rounding" (Interval.pitchRoundTo s) q r
  | gcd => withinDomain "gcd" (Interval.gcd s) q r
  | lcm => withinDomain "lcm" (Interval.lcm s) q r
  | backslash => withinDomain "backslashing" (Interval.backslash s) q r
  | project => withinDomain "projection" (Interval.project s) q r

theorem isRegular_interval {x : Except Fault Interval} (h : Ensures Interval.IsRegular x) :
    Ensures IsRegular (x.map interval) := h.map fun _ hi => hi

theorem isRegular_val {x : Except Fault Val} (h : Ensures Val.IsRegular x) :
    Ensures IsRegular (x.map val) := h.map fun _ hv => hv

/-- Operators that take two intervals. -/
theorem isRegular_withinDomain {operation : String}
    {op : Interval → Interval → Except Fault Interval}
    (h : ∀ a b, a.IsRegular → b.IsRegular → Ensures Interval.IsRegular (op a b))
    (hq : q.IsRegular) (hr : r.IsRegular) : Ensures IsRegular (withinDomain operation op q r) := by
  cases q with
  | interval a =>
    cases r with
    | interval b => exact isRegular_interval (h a b hq hr)
    | val w => trivial
  | val v => cases r <;> trivial

theorem isRegular_unary (op : Unary) (hq : q.IsRegular) : Ensures IsRegular (op.apply s q) := by
  cases q with
  | interval i =>
    cases op with
    | neg => exact isRegular_interval (Interval.isRegular_neg hq)
    | abs => exact isRegular_interval (Interval.isRegular_abs hq)
    | inverse => exact Interval.isRegular_inverse hq
    | broken => exact Interval.isRegular_broken hq
    | asDomain d => exact isRegular_interval (Interval.isRegular_asDomain hq)
    | move c arrow => exact isRegular_interval (Interval.isRegular_move hq)
  | val v =>
    cases op with
    | neg => exact isRegular_val (Val.isRegular_neg hq)
    | abs => exact isRegular_val Val.isRegular_abs
    | inverse => exact isRegular_interval Val.isRegular_inverse
    | broken => exact ⟨hq.bounded, .none⟩
    | asDomain d => exact hq
    | move c arrow => exact isRegular_val (Val.isRegular_move hq)

/-- Two intervals, two vals, or a val and an interval that scales it. -/
theorem isRegular_arithmetic (hq : q.IsRegular) (hr : r.IsRegular) :
    Ensures IsRegular (q.add s r) ∧ Ensures IsRegular (q.sub s r) ∧
      Ensures IsRegular (q.mul s r) ∧ Ensures IsRegular (q.div s r) := by
  cases q with
  | interval a =>
    cases r with
    | interval b =>
      exact ⟨isRegular_interval (Interval.isRegular_add hq hr),
        isRegular_interval (Interval.isRegular_sub hq hr),
        isRegular_interval (Interval.isRegular_mul hq hr),
        isRegular_interval (Interval.isRegular_div hq hr)⟩
    | val w =>
      refine ⟨trivial, trivial, ?_, trivial⟩
      show Ensures IsRegular (if a.domain = .linear then (w.mul s a).map val else _)
      split
      · exact isRegular_val (Val.isRegular_mul hr hq)
      · trivial
  | val v =>
    cases r with
    | interval b =>
      exact ⟨trivial, trivial, isRegular_val (Val.isRegular_mul hq hr),
        isRegular_val Val.isRegular_div⟩
    | val w =>
      exact ⟨isRegular_val (Val.isRegular_add hq hr), isRegular_val (Val.isRegular_sub hq hr),
        trivial, trivial⟩

theorem isRegular_dot : Ensures Interval.IsRegular (q.dot s r) := by
  cases q with
  | interval a =>
    cases r with
    | interval b => exact Interval.isRegular_dot
    | val w => exact Interval.isRegular_dotVal
  | val v =>
    cases r with
    | interval b => exact Interval.isRegular_dotVal
    | val w => exact Ensures.bind_any fun _ => Interval.isRegular_ofSteps

theorem isRegular_binary (op : Binary) (hq : q.IsRegular) (hr : r.IsRegular) :
    Ensures IsRegular (op.apply s q r) := by
  obtain ⟨hadd, hsub, hmul, hdiv⟩ := isRegular_arithmetic (s := s) hq hr
  cases op with
  | add => exact hadd
  | sub => exact hsub
  | mul => exact hmul
  | div => exact hdiv
  | dot => exact isRegular_interval isRegular_dot
  | modulo ceiling =>
    exact isRegular_withinDomain (fun _ _ ha hb => Interval.isRegular_modulo ha hb) hq hr
  | lsub =>
    exact isRegular_withinDomain
      (fun _ _ ha hb => Interval.isRegular_favor (Interval.isRegular_sub hb ha)) hq hr
  | ldiv =>
    exact isRegular_withinDomain
      (fun _ _ ha hb => Interval.isRegular_favor (Interval.isRegular_div hb ha)) hq hr
  | reduce ceiling => exact isRegular_withinDomain (fun _ _ _ _ => Interval.isRegular_reduce) hq hr
  | pow => exact isRegular_withinDomain (fun _ _ _ _ => Interval.isRegular_pow) hq hr
  | ipow => exact isRegular_withinDomain (fun _ _ _ _ => Interval.isRegular_ipow) hq hr
  | log => exact isRegular_withinDomain (fun _ _ _ _ => Interval.isRegular_log) hq hr
  | lensAdd =>
    exact isRegular_withinDomain (fun _ _ ha hb => Interval.isRegular_lensAdd ha hb) hq hr
  | lensSub =>
    exact isRegular_withinDomain (fun _ _ ha hb => Interval.isRegular_lensSub ha hb) hq hr
  | roundTo =>
    exact isRegular_withinDomain (fun _ _ ha hb => Interval.isRegular_roundTo ha hb) hq hr
  | pitchRoundTo =>
    exact isRegular_withinDomain (fun _ _ _ _ => Interval.isRegular_pitchRoundTo) hq hr
  | gcd => exact isRegular_withinDomain (fun _ _ _ _ => Interval.isRegular_gcd) hq hr
  | lcm => exact isRegular_withinDomain (fun _ _ _ _ => Interval.isRegular_lcm) hq hr
  | backslash => exact isRegular_withinDomain (fun _ _ _ _ => Interval.isRegular_backslash) hq hr
  | project => exact isRegular_withinDomain (fun _ _ _ _ => Interval.isRegular_project) hq hr

end Quantity

/-! ## Lowering -/

namespace Literal

variable {s : Settings} {c : Context} {l : Literal} {v : Value} {memo memo' : CommaMemo}

theorem isBounded_withArrows {ups lifts : Int} (hv : v.IsBounded) :
    Ensures Value.IsBounded (withArrows s c ups lifts v) := by
  have hmove : ∀ (v : Value) size n, Ensures Value.IsBounded (withArrows.move s v size n) :=
    fun v size n => Ensures.bind_any fun _ => Ensures.bind_any fun _ => Value.isBounded_mul
  have hlift : ∀ v : Value, v.IsBounded → Ensures Value.IsBounded
      (if lifts = 0 then pure v else withArrows.move s v (c.liftValue s) lifts) := by
    intro v hv
    split
    · exact hv
    · exact hmove _ _ _
  unfold withArrows
  by_cases hu : ups = 0
  · rw [if_pos hu]
    exact hlift v hv
  · rw [if_neg hu]
    exact (hmove v _ ups).bind hlift

theorem isBounded_exactValue : Ensures Monzo.IsBounded (exactValue s l) := by
  cases l with
  | integer n => exact Monzo.isBounded_ofRatio
  | fraction n d =>
    show Ensures _ (if d = 0 then _ else _)
    split
    · trivial
    · exact Monzo.isBounded_ofRatio
  | hertz text => exact Ensures.bind_any fun _ => Monzo.isBounded_ofFrequency
  | second text => exact Ensures.bind_any fun _ => Ensures.bind_any fun _ => Monzo.isBounded_checked
  | radical argument exponent =>
    show Ensures _ (if argument ≤ 0 then _ else _)
    split
    · trivial
    · exact Monzo.isBounded_ofTemperament
  | cents d real =>
    refine Ensures.bind_any fun q => ?_
    split
    · exact Ensures.bind_any fun x => Monzo.isBounded_checked
    · exact Monzo.isBounded_ofTemperament
  | cent real =>
    cases real with
    | false => exact Monzo.isBounded_ofTemperament
    | true => exact Monzo.isBounded_checked
  | steps w =>
    show Ensures _ (lowerSteps s _ w)
    unfold lowerSteps
    split
    · trivial
    · extract_lets equave
      split
      · trivial
      · exact Monzo.isBounded_ofTemperament
  | superparticular start stop => exact Monzo.isBounded_ofRatio
  | _ => trivial

theorem isBounded_lowerDecimal {d : Digits} {flavor : DecimalFlavor} :
    Ensures Value.IsBounded (lowerDecimal s d flavor) := by
  refine Ensures.bind_any fun q => ?_
  cases flavor with
  | real => exact Ensures.bind_any fun x => trivial
  | frequency => exact Monzo.isBounded_exact Monzo.isBounded_ofFrequency
  | plain => exact Monzo.isBounded_exact Monzo.isBounded_ofRatio
  | exact => exact Monzo.isBounded_exact Monzo.isBounded_ofRatio

theorem isBounded_lowerMonzo {w : Components} :
    Ensures Value.IsBounded (lowerMonzo s c l w) := by
  have hvector : Ensures Value.IsBounded (lowerVector s l w) := by
    unfold lowerVector
    split
    · exact Monzo.isBounded_exact Monzo.isBounded_checked
    · split
      · trivial
      · split
        · trivial
        · exact Ensures.bind (P := Monzo.IsBounded) Monzo.isBounded_checked fun one hone =>
            Value.isBounded_mulPowers (v := .exact one) _ hone
  exact hvector.bind fun v hv => isBounded_withArrows hv

/-- Inflecting ends with a product. -/
theorem isBounded_of_inflect {u : Value} {up down : List Inflection}
    (h : (inflect s u up down).Returns memo v memo') : v.IsBounded := by
  obtain ⟨commas, rest, -, h⟩ := Memoized.returns_bind.mp h
  exact Ensures.iff_forall.mp Value.isBounded_mul v (Memoized.returns_ofExcept.mp h).1

theorem isBounded_of_lowerValue (h : (lowerValue s c l).Returns memo v memo') : v.IsBounded := by
  have hexact : (Memoized.ofExcept ((exactValue s l).map Value.exact)).Returns memo v memo' →
      v.IsBounded := fun h =>
    Ensures.iff_forall.mp (Monzo.isBounded_exact isBounded_exactValue) v
      (Memoized.returns_ofExcept.mp h).1
  cases l with
  | decimal d flavor =>
    exact Ensures.iff_forall.mp isBounded_lowerDecimal v (Memoized.returns_ofExcept.mp h).1
  | monzo w => exact Ensures.iff_forall.mp isBounded_lowerMonzo v (Memoized.returns_ofExcept.mp h).1
  | interval p i =>
    obtain ⟨base, rest, -, h⟩ := Memoized.returns_bind.mp h
    obtain ⟨u, rest, hu, h⟩ := Memoized.returns_bind.mp h
    exact Ensures.iff_forall.mp (isBounded_withArrows (isBounded_of_inflect hu)) v
      (Memoized.returns_ofExcept.mp h).1
  | pitch p i =>
    obtain ⟨base, rest, -, h⟩ := Memoized.returns_bind.mp h
    obtain ⟨u, rest, -, h⟩ := Memoized.returns_bind.mp h
    obtain ⟨absolute, rest, habsolute, h⟩ := Memoized.returns_bind.mp h
    have hbounded := Ensures.iff_forall.mp Value.isBounded_mul absolute
      (Memoized.returns_ofExcept.mp habsolute).1
    exact Ensures.iff_forall.mp (isBounded_withArrows hbounded) v
      (Memoized.returns_ofExcept.mp h).1
  | _ => exact hexact h

/-- A placeholder has no value. -/
theorem isAspiring_of_lowerValue (h : (lowerValue s c l).Returns memo v memo') :
    l.isAspiring = false := by
  cases l with
  | aspiringInterval flavor =>
    obtain ⟨h, -⟩ := Memoized.returns_ofExcept.mp h
    cases h
  | aspiringPitch flavor =>
    obtain ⟨h, -⟩ := Memoized.returns_ofExcept.mp h
    cases h
  | _ => rfl

theorem isRegular_lowerVal {w : Components} :
    Ensures Val.IsRegular (lowerVal s c (val w) w) := by
  refine Ensures.bind_any fun ⟨entries, ratio⟩ => Ensures.bind_any fun equave => ?_
  refine Ensures.bind (P := Monzo.IsBounded) Monzo.isBounded_checked fun vector hvector => ?_
  have hmoved : Ensures Value.IsBounded (withArrows s c w.ups w.lifts (.exact vector)) :=
    isBounded_withArrows hvector
  exact hmoved.bind fun _ hv => Val.isRegular_make hv (.plain rfl)

end Literal

namespace Quantity

variable {s : Settings} {context : Option Context} {l : Literal} {q r : Quantity}
  {memo memo' : CommaMemo}

/-- What a literal that its constructors accept lowers to is regular. -/
theorem isRegular_of_lower (hl : l.Accepted) (h : (l.lower s context).Returns memo q memo') :
    q.IsRegular := by
  cases hval : l.isVal with
  | false =>
    obtain ⟨c, v, -, hv, rfl⟩ := (Literal.lower_returns_iff hval).mp h
    exact ⟨Literal.isBounded_of_lowerValue hv,
      .some (hl.flavored (Literal.isAspiring_of_lowerValue hv))⟩
  | true =>
    cases l with
    | val w =>
      obtain ⟨c, v, -, hv, rfl, -⟩ := Literal.lowerVal_returns_iff.mp h
      exact Ensures.iff_forall.mp Literal.isRegular_lowerVal v hv
    | _ => cases hval

/-- The quantities that lowering literals in any contexts and combining them by operators give, each
step under settings of its own. -/
inductive Obtained : Quantity → Prop
  | lowered {context : Option Context} {l : Literal} {q : Quantity} {memo memo' : CommaMemo}
      (s : Settings) (hl : l.Accepted) (h : (l.lower s context).Returns memo q memo') : Obtained q
  | unary {q r : Quantity} (s : Settings) (op : Unary) (hq : Obtained q)
      (h : op.apply s q = .ok r) : Obtained r
  | binary {q r t : Quantity} (s : Settings) (op : Binary) (hq : Obtained q) (hr : Obtained r)
      (h : op.apply s q r = .ok t) : Obtained t

/-- Whatever is obtained is regular. -/
theorem Obtained.regular (h : Obtained q) : q.IsRegular := by
  induction h with
  | lowered s hl h => exact isRegular_of_lower hl h
  | unary s op hq h ih => exact Ensures.iff_forall.mp (isRegular_unary op ih) _ h
  | binary s op hq hr h ihq ihr => exact Ensures.iff_forall.mp (isRegular_binary op ihq ihr) _ h

end Quantity

end Intonation
