import Intonation.Proofs.Monzo.Bounds
import Intonation.Proofs.Outcome
import Intonation.Value.Measure

/-!
# Values within bounds

An exact value is checked when it is made, so it is within the bounds in force then, which need not
be those in force now. Operations check what they return; only a magnitude is handed on as it is.

## Main definitions

* `Monzo.IsBounded`, `Value.IsBounded`: values within some bounds

## Main statements

* `Monzo.isBounded_checked`: the one place where exact values are made
* `Value.isBounded_add` and its like: the results of operations
-/

namespace Intonation

/-- A value within the bounds of some settings. -/
def Monzo.IsBounded (m : Monzo) : Prop := ∃ s, boundsFault? s m = none

/-- A value within the bounds of some settings, if it is exact. -/
def Value.IsBounded : Value → Prop
  | .exact m => m.IsBounded
  | .real _ => True

namespace Monzo

variable {s : Settings} {count : Nat} {a b m : Monzo}

theorem isBounded_checked : Ensures IsBounded (checked s m) := by
  refine Ensures.iff_forall.mpr fun n h => ?_
  obtain ⟨hbounded, rfl⟩ := checked_eq_ok_iff.mp h
  exact ⟨s, hbounded⟩

theorem isBounded_exact {x : Except Fault Monzo} (h : Ensures IsBounded x) :
    Ensures Value.IsBounded (x.map .exact) := h.map fun _ hm => hm

theorem isBounded_real (x : Except Fault Approx) : Ensures Value.IsBounded (x.map .real) := by
  cases x <;> trivial

/-! ## Construction -/

theorem isBounded_ofRatioOver {q : ℚ} : Ensures IsBounded (ofRatioOver s count q) :=
  Ensures.bind_any fun _ => isBounded_checked

theorem isBounded_ofRatio {q : ℚ} : Ensures IsBounded (ofRatio s q) := isBounded_ofRatioOver

theorem isBounded_ofFrequency {q : ℚ} : Ensures IsBounded (ofFrequency s q) :=
  Ensures.bind_any fun _ => isBounded_checked

theorem isBounded_ofTemperament {fraction equave : ℚ} :
    Ensures IsBounded (ofTemperament s count fraction equave) := by
  refine Ensures.bind_any fun base => ?_
  split
  · exact isBounded_checked
  · split
    · trivial
    · split
      · trivial
      · exact isBounded_checked

/-! ## One operand -/

theorem isBounded_inverse : Ensures Value.IsBounded (m.inverse s) := by
  unfold inverse
  split
  · trivial
  · exact isBounded_exact isBounded_checked

theorem isBounded_pitchAbs : Ensures Value.IsBounded (m.pitchAbs s) := by
  refine Ensures.bind (P := IsBounded) isBounded_checked fun magnitude hm => ?_
  split
  · exact isBounded_inverse
  · exact hm

theorem isBounded_irrationalPow {x : Float} : Ensures Value.IsBounded (m.irrationalPow s x) := by
  unfold irrationalPow
  split
  · trivial
  · exact isBounded_real _

theorem isBounded_powRatio {q : ℚ} : Ensures Value.IsBounded (m.powRatio s q) := by
  have hpower : ∀ n : Monzo, Ensures Value.IsBounded
      (checked s n >>= fun power => .ok (.exact power)) := fun n =>
    Ensures.bind (P := IsBounded) isBounded_checked fun _ h => h
  unfold powRatio
  split
  · exact Ensures.bind_any fun x => isBounded_irrationalPow
  · split
    · trivial
    · split
      · exact Ensures.bind_any fun x => hpower _
      · refine Ensures.bind_any fun x => ?_
        split
        · exact isBounded_irrationalPow
        · exact hpower _

theorem isBounded_powNumber {x : Number} : Ensures Value.IsBounded (m.powNumber s x) := by
  unfold powNumber
  split
  · exact isBounded_powRatio
  · exact isBounded_powRatio
  · split
    · exact isBounded_powRatio
    · exact isBounded_irrationalPow

theorem isBounded_pow {x : Value} : Ensures Value.IsBounded (m.pow s x) := by
  unfold pow
  split
  · trivial
  · split
    · exact isBounded_irrationalPow
    · split
      · exact isBounded_powRatio
      · exact isBounded_irrationalPow

theorem isBounded_geometricInverse : Ensures IsBounded (m.geometricInverse s) := by
  refine Ensures.bind_any fun magnitude => ?_
  split
  · trivial
  · exact Ensures.bind_any fun vector => Ensures.bind_any fun x => isBounded_checked

/-! ## Two operands -/

theorem isBounded_mul : Ensures IsBounded (a.mul s b) :=
  Ensures.bind_any fun _ => isBounded_checked

theorem isBounded_div : Ensures Value.IsBounded (a.div s b) := by
  unfold div
  split
  · trivial
  · exact isBounded_exact (Ensures.bind_any fun _ => isBounded_checked)

/-- The time units of the first operand do not matter to the bounds. -/
theorem isBounded_ratioResult {q : ℚ} : Ensures Value.IsBounded (ratioResult s a b q) :=
  Ensures.bind (P := IsBounded) isBounded_ofRatioOver fun _ h => h

theorem isBounded_add : Ensures Value.IsBounded (a.add s b) := by
  refine Ensures.bind_any fun _ => ?_
  split
  · exact isBounded_ratioResult
  · exact isBounded_real _

theorem isBounded_sub : Ensures Value.IsBounded (a.sub s b) := by
  refine Ensures.bind_any fun _ => ?_
  split
  · exact isBounded_ratioResult
  · exact isBounded_real _

theorem isBounded_modulo {ceiling : Bool} : Ensures Value.IsBounded (a.modulo s b ceiling) := by
  unfold modulo
  split
  · refine Ensures.bind_any fun _ => ?_
    split
    · exact isBounded_real _
    · exact isBounded_ratioResult
  · exact isBounded_real _

theorem isBounded_scalarLog : Ensures Value.IsBounded (a.scalarLog s b) := by
  unfold scalarLog
  extract_lets solved
  have hsolved : ∀ solution, Ensures Value.IsBounded (solved solution) := by
    intro solution
    cases solution with
    | some x => exact isBounded_exact isBounded_ofRatio
    | none => exact isBounded_real _
  split
  · exact Ensures.bind_any fun a' => Ensures.bind_any fun b' => Ensures.bind_any hsolved
  · split
    · exact Ensures.bind_any hsolved
    · exact Ensures.bind_any hsolved

theorem isBounded_log : Ensures Value.IsBounded (a.log s b) := by
  unfold log
  split
  · exact isBounded_real _
  · split
    · unfold timeLog
      split
      · trivial
      · refine Ensures.bind_any fun power => Ensures.bind_any fun equal => ?_
        split
        · exact isBounded_exact isBounded_ofRatio
        · trivial
    · exact isBounded_scalarLog

end Monzo

namespace Value

variable {s : Settings} {v w : Value}

/-- An operation that returns bounded values for exact operands does so for all operands. -/
theorem isBounded_lift {onExact : Monzo → Monzo → Except Fault Value}
    {onReal : Approx → Approx → Except Fault Approx}
    (h : ∀ m n : Monzo, Ensures IsBounded (onExact m n)) :
    Ensures IsBounded (lift onExact onReal v w) := by
  cases v with
  | exact m =>
    cases w with
    | exact n => exact h m n
    | real b => exact Monzo.isBounded_real _
  | real a => cases w <;> exact Monzo.isBounded_real _

theorem isBounded_neg : Ensures IsBounded (v.neg s) := by
  cases v with
  | exact m => exact Monzo.isBounded_exact Monzo.isBounded_checked
  | real a => trivial

theorem isBounded_inverse : Ensures IsBounded (v.inverse s) := by
  cases v with
  | exact m => exact Monzo.isBounded_inverse
  | real a => trivial

theorem isBounded_abs : Ensures IsBounded (v.abs s) := by
  cases v with
  | exact m => exact Monzo.isBounded_exact Monzo.isBounded_checked
  | real a => trivial

theorem isBounded_pitchAbs : Ensures IsBounded (v.pitchAbs s) := by
  cases v with
  | exact m => exact Monzo.isBounded_pitchAbs
  | real a => trivial

theorem isBounded_add : Ensures IsBounded (v.add s w) :=
  isBounded_lift fun _ _ => Monzo.isBounded_add

theorem isBounded_sub : Ensures IsBounded (v.sub s w) :=
  isBounded_lift fun _ _ => Monzo.isBounded_sub

theorem isBounded_mul : Ensures IsBounded (v.mul s w) :=
  isBounded_lift fun _ _ => Monzo.isBounded_exact Monzo.isBounded_mul

theorem isBounded_div : Ensures IsBounded (v.div s w) :=
  isBounded_lift fun _ _ => Monzo.isBounded_div

theorem isBounded_powNumber {x : Number} : Ensures IsBounded (v.powNumber s x) := by
  cases v with
  | exact m => exact Monzo.isBounded_powNumber
  | real a => exact Ensures.bind_any fun y => Ensures.bind_any fun power => trivial

theorem isBounded_pow : Ensures IsBounded (v.pow s w) := by
  cases v with
  | exact m => exact Monzo.isBounded_pow
  | real a =>
    show Ensures IsBounded (if w.isScalar then _ else _)
    split
    · exact Monzo.isBounded_real _
    · trivial

/-- The reciprocal of a harmonic sum or difference. -/
theorem isBounded_lensAdd : Ensures IsBounded (v.lensAdd s w) :=
  isBounded_lift fun _ _ => Ensures.bind_any fun _ => Ensures.bind_any fun _ =>
    Ensures.bind_any fun _ => isBounded_inverse

theorem isBounded_lensSub : Ensures IsBounded (v.lensSub s w) :=
  isBounded_lift fun _ _ => Ensures.bind_any fun _ => Ensures.bind_any fun _ =>
    Ensures.bind_any fun _ => isBounded_inverse

theorem isBounded_log : Ensures IsBounded (v.log s w) :=
  isBounded_lift fun _ _ => Monzo.isBounded_log

theorem isBounded_geometricInverse : Ensures IsBounded (v.geometricInverse s) := by
  cases v with
  | exact m => exact Monzo.isBounded_exact Monzo.isBounded_geometricInverse
  | real a => trivial

theorem isBounded_modulo {ceiling : Bool} : Ensures IsBounded (v.modulo s w ceiling) :=
  isBounded_lift fun _ _ => Monzo.isBounded_modulo

theorem isBounded_reduce {ceiling : Bool} : Ensures IsBounded (v.reduce s w ceiling) := by
  have hpower : ∀ (a b : Monzo) (k : Int), Ensures IsBounded (a.divPower s b k) := fun a b k =>
    Ensures.bind_any fun power => isBounded_div
  refine isBounded_lift fun a b => ?_
  unfold Monzo.reduce
  extract_lets period
  split
  · trivial
  · refine Ensures.bind_any fun periods => ?_
    split
    · exact hpower a b _
    · split
      · exact hpower a b _
      · exact Monzo.isBounded_real _

theorem isBounded_project : Ensures IsBounded (v.project s w) := by
  unfold project
  extract_lets spanned
  split
  · split
    · exact isBounded_powNumber
    · exact isBounded_pow
  · exact isBounded_pow

theorem isBounded_roundTo : Ensures IsBounded (v.roundTo s w) := by
  refine isBounded_lift fun a b => Ensures.bind_any fun _ => Ensures.bind_any fun quotient => ?_
  split
  · trivial
  · exact Ensures.bind_any fun factor => Monzo.isBounded_exact Monzo.isBounded_mul

theorem isBounded_pitchRoundTo : Ensures IsBounded (v.pitchRoundTo s w) := by
  refine isBounded_lift fun a b => Ensures.bind_any fun exponent => ?_
  split
  · trivial
  · exact Monzo.isBounded_powRatio

theorem isBounded_gcd : Ensures IsBounded (v.gcd s w) := by
  unfold gcd
  split
  · exact Monzo.isBounded_exact (Ensures.bind_any fun _ => Monzo.isBounded_checked)
  · trivial

theorem isBounded_lcm : Ensures IsBounded (v.lcm s w) := by
  unfold lcm
  split
  · exact Monzo.isBounded_exact (Ensures.bind_any fun _ => Monzo.isBounded_checked)
  · trivial

/-- A product of powers. -/
theorem isBounded_mulPowers {count : Nat} (powers : List (ℚ × ℚ)) (hv : v.IsBounded) :
    Ensures IsBounded (mulPowers s count powers v) := by
  induction powers generalizing v with
  | nil => exact hv
  | cons power powers ih =>
    exact Ensures.bind_any fun base => Ensures.bind_any fun p =>
      Ensures.bind isBounded_mul fun _ hproduct => ih hproduct

end Value

end Intonation
