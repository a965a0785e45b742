import Intonation.Value.Measure
import Intonation.Proofs.Outcome

/-!
# Real operands of exact values

An operation on an exact and a real value is to be the same operation on two real values. Powers
are the exception: an exact value with time units refuses every real exponent, while a real value
only refuses those that it takes as irrational.

## Main definitions

* `MixedOp`: the operations whose second operand may be of either kind
* `SameOutcome`: the same real value, or failures of one family
* `Double.IsIrrational`: a finite double that no ratio with a bounded denominator explains
* `MixedOp.Refuses`: a power that only the real value has

## Main statements

* `MixedOp.sameOutcome_iff`: the two operations have one outcome unless a power is refused
-/

namespace Intonation

/-- The operations whose second operand may be of either kind. -/
inductive MixedOp
  | add
  | sub
  | mul
  | div
  | pow
  | log
  | modulo (ceiling : Bool)
  | reduce (ceiling : Bool)
  | lensAdd
  | lensSub
  | roundTo
  | pitchRoundTo
  deriving DecidableEq

/-- An operation on values. -/
def MixedOp.apply (s : Settings) : MixedOp → Value → Value → Except Fault Value
  | add, v, w => v.add s w
  | sub, v, w => v.sub s w
  | mul, v, w => v.mul s w
  | div, v, w => v.div s w
  | pow, v, w => v.pow s w
  | log, v, w => v.log s w
  | modulo ceiling, v, w => v.modulo s w ceiling
  | reduce ceiling, v, w => v.reduce s w ceiling
  | lensAdd, v, w => v.lensAdd s w
  | lensSub, v, w => v.lensSub s w
  | roundTo, v, w => v.roundTo s w
  | pitchRoundTo, v, w => v.pitchRoundTo s w

/-- The same real value, or failures of one family. -/
inductive SameOutcome : Except Fault Value → Except Fault Value → Prop
  | returns (a : Approx) : SameOutcome (.ok (.real a)) (.ok (.real a))
  | fails {f g : Fault} (h : f.family = g.family) : SameOutcome (.error f) (.error g)

/-- A finite double that is not the nearest one to its best approximation with a bounded
denominator. -/
def Double.IsIrrational (s : Settings) (x : Float) : Prop :=
  ∃ q, Double.toRat? x = some q ∧
    ¬ (Double.nearest (Ratio.approximate q s.maxPowDenominator) == x) = true

namespace MixedOp

/-- An operation on real values. -/
def onReals (s : Settings) : MixedOp → Approx → Approx → Except Fault Approx
  | add, a, b => a.add b
  | sub, a, b => a.sub b
  | mul, a, b => .ok (a.mul b)
  | div, a, b => .ok (a.div b)
  | pow, a, b => if b.isScalar then a.pow s b.value else .error .nonScalarPower
  | log, a, b => a.log b
  | modulo ceiling, a, b => a.modulo b ceiling
  | reduce ceiling, a, b => a.reduce s b ceiling
  | lensAdd, a, b => a.lensAdd b
  | lensSub, a, b => a.lensSub b
  | roundTo, a, b => a.roundTo b
  | pitchRoundTo, a, b => a.pitchRoundTo s b

/-- A power that only the real value has: the value has time units, the exponent has none and is
not taken as irrational. -/
def Refuses (op : MixedOp) (s : Settings) (m : Monzo) (a : Approx) : Prop :=
  op = pow ∧ m.time ≠ 0 ∧ a.time = 0 ∧ ¬ Double.IsIrrational s a.value

end MixedOp

/-- A real outcome has the same outcome as itself. -/
theorem SameOutcome.map_real (x : Except Fault Approx) :
    SameOutcome (x.map .real) (x.map .real) := by
  cases x with
  | error f => exact .fails rfl
  | ok a => exact .returns a

namespace Approx

theorem powTime_of_isIrrational {s : Settings} {time : Rat} {x : Float} (ht : time ≠ 0)
    (hx : Double.IsIrrational s x) : powTime s time x = .error .irrationalTimePower := by
  obtain ⟨q, hq, hne⟩ := hx
  simp only [powTime, if_neg ht, hq, if_neg hne]

/-- Real arithmetic refuses a power of a time unit as unsupported only if the exponent is
irrational. -/
theorem meets_powTime (s : Settings) (time : Rat) (x : Float) :
    Meets (fun _ => True) (fun f => f.family = .unsupported → Double.IsIrrational s x)
      (powTime s time x) := by
  unfold powTime
  refine Meets.ite trivial ?_
  split
  · -- an infinite exponent and one that is no number fail on the way to a ratio
    intro hf
    split at hf <;> cases hf
  · next q hq =>
    dsimp only
    split
    · trivial
    · next hne => exact fun _ => ⟨q, hq, hne⟩

theorem meets_powValue (value exponent : Float) :
    Meets (fun _ => True) (fun f => f = .magnitudeBound) (powValue value exponent) := by
  unfold powValue
  refine Meets.ite trivial ?_
  dsimp only
  exact Meets.ite (Meets.ite trivial rfl) trivial

theorem meets_pow (s : Settings) (a : Approx) (x : Float) :
    Meets (fun _ => True) (fun f => f.family = .unsupported → Double.IsIrrational s x)
      (a.pow s x) := by
  refine (meets_powTime s a.time x).bind fun time _ => ?_
  have hvalue := meets_powValue a.value x
  cases hpower : powValue a.value x with
  | ok value => trivial
  | error f =>
    rw [hpower] at hvalue
    obtain rfl : f = .magnitudeBound := hvalue
    exact fun hf => by cases hf

end Approx

namespace Monzo

theorem irrationalPow_of_time {s : Settings} {m : Monzo} (h : m.time ≠ 0) (x : Float) :
    m.irrationalPow s x = .error .irrationalTimePower := if_pos h

/-- Without time units a real exponent is left to real arithmetic. -/
theorem irrationalPow_of_scalar {s : Settings} {m : Monzo} (h : m.time = 0) (x : Float) :
    m.irrationalPow s x = (m.toApprox.pow s x).map .real := if_neg (not_not_intro h)

end Monzo

namespace MixedOp

/-- Two real values meet in real arithmetic. -/
theorem apply_real_real (s : Settings) (op : MixedOp) (a b : Approx) :
    op.apply s (.real a) (.real b) = (op.onReals s a b).map .real := by
  cases op with
  | pow =>
    rw [onReals, apply_ite (Except.map Value.real)]
    rfl
  | _ => rfl

/-- Every operation but the power turns to real arithmetic as soon as its second operand is
real. -/
theorem apply_exact_real {op : MixedOp} (h : op ≠ pow) (s : Settings) (m : Monzo) (a : Approx) :
    op.apply s (.exact m) (.real a) = (op.onReals s m.toApprox a).map .real := by
  cases op with
  | pow => exact absurd rfl h
  | _ => rfl

theorem apply_pow (s : Settings) (m : Monzo) (a : Approx) :
    pow.apply s (.exact m) (.real a) =
      if a.isScalar then m.irrationalPow s a.value else .error .nonScalarPower := by
  simp only [apply, Value.pow, Monzo.pow, Bool.not_eq_true', ← Bool.not_eq_true, ite_not]
  rfl

/-- A real exponent of an exact value that is not refused gives what real arithmetic gives. -/
theorem sameOutcome_pow {s : Settings} {m : Monzo} {a : Approx} (h : ¬ pow.Refuses s m a) :
    SameOutcome (pow.apply s (.exact m) (.real a)) ((pow.onReals s m.toApprox a).map .real) := by
  rw [apply_pow, onReals]
  split
  · next hscalar =>
    by_cases hm : m.time = 0
    · rw [Monzo.irrationalPow_of_scalar hm]
      exact .map_real _
    · have hx : Double.IsIrrational s a.value := by
        by_contra hx
        exact h ⟨rfl, hm, of_decide_eq_true hscalar, hx⟩
      have htime : Approx.powTime s m.toApprox.time a.value = .error .irrationalTimePower :=
        Approx.powTime_of_isIrrational hm hx
      rw [Monzo.irrationalPow_of_time hm, Approx.pow, htime]
      exact .fails rfl
  · exact .fails rfl

/-- A refused power fails as unsupported, and in real arithmetic it never does. -/
theorem not_sameOutcome_pow {s : Settings} {m : Monzo} {a : Approx} (h : pow.Refuses s m a) :
    ¬ SameOutcome (pow.apply s (.exact m) (.real a))
      ((pow.onReals s m.toApprox a).map .real) := by
  obtain ⟨-, hm, ha, hx⟩ := h
  have hscalar : a.isScalar = true := decide_eq_true ha
  rw [apply_pow, onReals, if_pos hscalar, if_pos hscalar, Monzo.irrationalPow_of_time hm]
  have hpow := Approx.meets_pow s m.toApprox a.value
  intro hsame
  cases hreal : m.toApprox.pow s a.value with
  | ok power =>
    rw [hreal] at hsame
    cases hsame
  | error f =>
    rw [hreal] at hpow hsame
    cases hsame with
    | fails hfamily => exact hx (hpow hfamily.symm)

/-- An operation on an exact and a real value has the outcome of the same operation on two real
values, whatever the time units and whatever the real, unless it is a power that the exact value
refuses. -/
theorem sameOutcome_iff (s : Settings) (op : MixedOp) (m : Monzo) (a : Approx) :
    SameOutcome (op.apply s (.exact m) (.real a)) (op.apply s (.real m.toApprox) (.real a)) ↔
      ¬ op.Refuses s m a := by
  rw [apply_real_real]
  by_cases hop : op = pow
  · subst hop
    exact ⟨fun hsame hrefuses => not_sameOutcome_pow hrefuses hsame, sameOutcome_pow⟩
  · rw [apply_exact_real hop]
    exact iff_of_true (.map_real _) fun h => hop h.1

/-- A frequency of 440 hertz squared by a real exponent is refused, and by real arithmetic it is
not. -/
theorem not_sameOutcome_square :
    let m : Monzo := { time := -1, exps := [3, 0, 1, 0, 1] }
    let a : Approx := { value := Double.nearest 2 }
    Monzo.checked {} m = .ok m ∧
      pow.apply {} (.exact m) (.real a) = .error .irrationalTimePower ∧
      ¬ SameOutcome (pow.apply {} (.exact m) (.real a))
        (pow.apply {} (.real m.toApprox) (.real a)) := by
  intro m a
  have hx : ¬ Double.IsIrrational {} a.value := by
    rintro ⟨q, hq, hne⟩
    have h2 : Double.toRat? a.value = some 2 := by decide +kernel
    rw [h2] at hq
    cases hq
    exact hne (by decide +kernel)
  refine ⟨Monzo.checked_eq_ok_iff.mpr ⟨by decide +kernel, rfl⟩, rfl, ?_⟩
  rw [apply_real_real]
  exact not_sameOutcome_pow ⟨rfl, by decide, rfl, hx⟩

end MixedOp

end Intonation
