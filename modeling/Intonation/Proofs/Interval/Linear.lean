import Intonation.Proofs.Literal.RatioPower

/-!
# Literals of linear expressions

An expression of integers, fractions and exact decimals is evaluated by the operators on linear
intervals. Every operator computes the value and the literal apart. Whatever the expression, a
literal that comes out lowers to the value that came out beside it.

## Main definitions

* `LinearExpr`, `LinearExpr.eval`: expressions of ratios and their evaluation
* `LinearExpr.Modest`: exponents have small denominators
* `Interval.Sound`: the literal of a linear interval spells its value

## Main statements

* `Sound.apply_unary`, `Sound.apply_binary`: operators keep literals sound
* `LinearExpr.lowers_literal`: the literal of an expression lowers to its value
-/

namespace Intonation

/-! ## Expressions -/

/-- The interval that a quantity is. -/
def Quantity.toInterval : Quantity → Except Fault Interval
  | interval i => .ok i
  | val _ => .error (.linearRequired "division")

/-- The operators on one linear interval. -/
inductive Unary
  | neg
  | abs
  | inverse

/-- The result of an operator on one interval. -/
def Unary.apply (s : Settings) : Unary → Interval → Except Fault Interval
  | neg, i => i.neg s
  | abs, i => i.abs s
  | inverse, i => i.inverse s >>= Quantity.toInterval

/-- The operators on two linear intervals. -/
inductive Binary
  | add
  | sub
  | mul
  | div
  | pow
  | ipow
  | log
  | reduce (ceiling : Bool)
  | modulo (ceiling : Bool)
  | lensAdd
  | lensSub
  | roundTo
  | pitchRoundTo
  | lcm

namespace Binary

/-- The result of an operator on two intervals. -/
def apply (s : Settings) : Binary → Interval → Interval → Except Fault Interval
  | add, i, j => i.add s j
  | sub, i, j => i.sub s j
  | mul, i, j => i.mul s j
  | div, i, j => i.div s j
  | pow, i, j => i.pow s j
  | ipow, i, j => i.ipow s j
  | log, i, j => i.log s j
  | reduce ceiling, i, j => i.reduce s j ceiling
  | modulo ceiling, i, j => i.modulo s j ceiling
  | lensAdd, i, j => i.lensAdd s j
  | lensSub, i, j => i.lensSub s j
  | roundTo, i, j => i.roundTo s j
  | pitchRoundTo, i, j => i.pitchRoundTo s j
  | lcm, i, j => i.lcm s j

/-- The exponent of a power has a small denominator, as the reciprocal has for a root. -/
def Admits (s : Settings) (op : Binary) (exponent : Value) : Prop :=
  match op with
  | pow => ∀ q, exponent.toRatio = .ok q → q.den < s.maxPowDenominator
  | ipow => ∀ q, exponent.toRatio = .ok q → q⁻¹.den < s.maxPowDenominator
  | _ => True

end Binary

/-- An expression of literals of ratios. -/
inductive LinearExpr
  | leaf (l : Literal) (h : l.isRatio)
  | unary (op : Unary) (e : LinearExpr)
  | binary (op : Binary) (e f : LinearExpr)

namespace LinearExpr

/-- The interval of an expression: literals are lowered and operators applied. -/
def eval (s : Settings) (context : Option Context) : LinearExpr → Memoized Interval
  | leaf l _ => do
    let q ← l.lower s context
    Memoized.ofExcept q.toInterval
  | unary op e => do
    let i ← e.eval s context
    Memoized.ofExcept (op.apply s i)
  | binary op e f => do
    let i ← e.eval s context
    let j ← f.eval s context
    Memoized.ofExcept (op.apply s i j)

/-- Every exponent in an expression has a small denominator. -/
def Modest (s : Settings) (context : Option Context) : LinearExpr → Prop
  | leaf _ _ => True
  | unary _ e => e.Modest s context
  | binary op e f => e.Modest s context ∧ f.Modest s context ∧
    ∀ j memo memo', (f.eval s context).Returns memo j memo' → op.Admits s j.value

end LinearExpr

/-! ## Optional literals -/

namespace Literal

variable {x y z : Option Literal} {l : Literal}

theorem of_within {d : Domain} (h : within d x = some l) : x = some l :=
  Option.eq_some_of_filter_eq_some h

theorem of_combine {op : Literal → Literal → Except Fault (Option Literal)}
    (h : combine op x y = .ok (some l)) :
    ∃ a b, x = some a ∧ y = some b ∧ op a b = .ok (some l) := by
  unfold combine at h
  split at h
  · exact ⟨_, _, rfl, rfl, h⟩
  · cases h

theorem of_combine? {op : Literal → Literal → Option Literal} (h : combine? op x y = some l) :
    ∃ a b, x = some a ∧ y = some b ∧ op a b = some l := by
  unfold combine? at h
  split at h
  · exact ⟨_, _, rfl, rfl, h⟩
  · cases h

theorem of_orRespelled {op : Literal → Literal → Except Fault (Option Literal)} {v : Value}
    (hz : combine op x y = .ok z) (hl : orRespelled v x y z = some l) :
    ∃ a b, x = some a ∧ y = some b ∧ op a b = .ok z ∧
      orRespelled v (some a) (some b) z = some l := by
  unfold combine at hz
  split at hz
  · exact ⟨_, _, rfl, rfl, hz, hl⟩
  · next hnone =>
    cases hz
    cases x with
    | none => cases hl
    | some a =>
      cases y with
      | none => cases hl
      | some b => exact absurd rfl (hnone a b rfl)

end Literal

/-! ## Operators that go through values -/

namespace Literal

variable {s : Settings} {a b l : Literal}

theorem modulo_eq_throughValues {ceiling : Bool} (ha : a.isNumeric) (hb : b.isNumeric) :
    Literal.modulo s ceiling a b =
      .ok (throughValues s (fun m n => m.modulo s n ceiling) a b) := by
  cases a <;> cases ha <;> cases b <;> cases hb <;> rfl

theorem roundTo_eq_throughValues (ha : a.isNumeric) (hb : b.isNumeric) :
    Literal.roundTo s a b = .ok (throughValues s (Monzo.roundTo s) a b) := by
  cases a <;> cases ha <;> cases b <;> cases hb <;> rfl

theorem lensSizes_eq_none {op : ℚ → ℚ → ℚ} (ha : a.isNumeric) (hb : b.isNumeric) :
    lensSizes op a b = .ok none := by
  cases a <;> cases ha <;> cases b <;> cases hb <;> rfl

theorem throughValues_eq_none {op : Monzo → Monzo → Except Fault Value}
    (h : ¬ a.exactRatio?.isSome) : throughValues s op a b = none := by
  rw [Option.not_isSome_iff_eq_none] at h
  unfold throughValues
  rw [h]

theorem lensAdd_eq_throughValues (ha : a.isNumeric) (hb : b.isNumeric) :
    Literal.lensAdd s a b =
      .ok (throughValues s (fun m n => (Value.exact m).lensAdd s (.exact n)) a b) := by
  unfold Literal.lensAdd
  split
  · rfl
  · next h => rw [lensSizes_eq_none ha hb, throughValues_eq_none h]

theorem lensSub_eq_throughValues (ha : a.isNumeric) (hb : b.isNumeric) :
    Literal.lensSub s a b =
      .ok (throughValues s (fun m n => (Value.exact m).lensSub s (.exact n)) a b) := by
  unfold Literal.lensSub
  split
  · rfl
  · next h => rw [lensSizes_eq_none ha hb, throughValues_eq_none h]

end Literal

theorem Value.lensAdd_eq_lift (s : Settings) (v w : Value) : v.lensAdd s w =
    Value.lift (fun m n => (Value.exact m).lensAdd s (.exact n)) Approx.lensAdd v w := by
  cases v <;> cases w <;> rfl

theorem Value.lensSub_eq_lift (s : Settings) (v w : Value) : v.lensSub s w =
    Value.lift (fun m n => (Value.exact m).lensSub s (.exact n)) Approx.lensSub v w := by
  cases v <;> cases w <;> rfl

/-! ## Sound intervals -/

namespace Interval

variable {s : Settings} {i j k : Interval} {l : Literal}

/-- A linear interval whose literal, if it has one, spells its value. -/
structure Sound (s : Settings) (i : Interval) : Prop where
  linear : i.domain = .linear
  spells : ∀ l, i.literal = some l → l.Spells s i.value

theorem Sound.of_make {v : Value} {d : Domain} {x : Option Literal} {m : Metadata}
    (h : make v d x m = .ok k) (hd : d = .linear) (hx : ∀ l, x = some l → l.Spells s v) :
    Sound s k := by
  subst hd
  cases h
  exact ⟨rfl, fun l hl => hx l (Literal.of_within hl)⟩

theorem Sound.derive {v : Value} {x : Option Literal} (hi : Sound s i)
    (hx : ∀ l, x = some l → l.Spells s v) : Sound s (i.derive v x) :=
  ⟨hi.linear, fun l hl => hx l (Literal.of_within hl)⟩

/-- A literal of a ratio lowers to a sound interval. -/
theorem Sound.of_lower {context : Option Context} {memo memo' : CommaMemo} {q : Quantity}
    (hl : l.isRatio) (h : (l.lower s context).Returns memo q memo') (hq : q.toInterval = .ok i) :
    Sound s i := by
  have hval : l.isVal = false := by cases l <;> first | rfl | cases hl
  have hdomain : l.domain = .linear := by cases l <;> first | rfl | cases hl
  obtain ⟨c, v, -, hv, rfl⟩ := (Literal.lower_returns_iff hval).mp h
  cases hq
  refine ⟨hdomain, fun l' hl' => ?_⟩
  cases hl'
  exact Literal.spells_of_lowerValue hl hv

/-! ## Unary operators -/

theorem Sound.neg (hi : Sound s i) (h : i.neg s = .ok k) : Sound s k := by
  simp only [Interval.neg, hi.linear, if_true] at h
  obtain ⟨v, hv, hk⟩ := bind_eq_ok.mp h
  cases hk
  refine hi.derive fun l hl => ?_
  obtain ⟨a, ha, hl⟩ := Option.bind_eq_some_iff.mp hl
  exact (hi.spells a ha).neg hv hl

theorem Sound.abs (hi : Sound s i) (h : i.abs s = .ok k) : Sound s k := by
  simp only [Interval.abs, hi.linear, if_true] at h
  obtain ⟨v, hv, hk⟩ := bind_eq_ok.mp h
  cases hk
  refine hi.derive fun l hl => ?_
  obtain ⟨a, ha, hl⟩ := Option.bind_eq_some_iff.mp hl
  exact (hi.spells a ha).abs hv hl

theorem Sound.inverse (hi : Sound s i) (h : i.inverse s = .ok (.interval k)) : Sound s k := by
  unfold Interval.inverse at h
  rw [if_pos hi.linear] at h
  obtain ⟨v, hv, hk⟩ := bind_eq_ok.mp h
  cases hk
  refine hi.derive fun l hl => ?_
  obtain ⟨a, ha, hl⟩ := Option.bind_eq_some_iff.mp hl
  exact (hi.spells a ha).invert hv hl

/-- Every operator on one interval keeps literals sound. -/
theorem Sound.apply_unary {op : Unary} (hi : Sound s i) (h : op.apply s i = .ok k) :
    Sound s k := by
  cases op with
  | neg => exact hi.neg h
  | abs => exact hi.abs h
  | inverse =>
    obtain ⟨q, hq, hk⟩ := bind_eq_ok.mp h
    cases q with
    | val v => cases hk
    | interval k' =>
      cases hk
      exact hi.inverse hq

/-! ## Binary operators -/

section
variable {onLiterals : Literal → Literal → Except Fault (Option Literal)}
  {onValues : Value → Value → Except Fault Value} {x : Option Literal} {v : Value} {m : Metadata}
  (hi : Sound s i) (hj : Sound s j)
  (hx : Literal.combine onLiterals i.literal j.literal = .ok x)
  (hv : onValues i.value j.value = .ok v)
include hi hj hx hv

/-- An operation keeps literals sound when its literals spell its values. -/
theorem Sound.combined
    (hspells : ∀ {a b l : Literal} {u w v : Value}, a.Spells s u → b.Spells s w →
      onValues u w = .ok v → onLiterals a b = .ok (some l) → l.Spells s v)
    (h : make v .linear x m = .ok k) : Sound s k := by
  refine .of_make h rfl fun l hl => ?_
  subst hl
  obtain ⟨a, b, ha, hb, hl⟩ := Literal.of_combine hx
  exact hspells (hi.spells a ha) (hj.spells b hb) hv hl

/-- The same of an operation whose literal may be spelled from its value. -/
theorem Sound.respelled
    (hspells : ∀ {a b l : Literal} {u w v : Value} {x : Option Literal}, a.Spells s u →
      b.Spells s w → onValues u w = .ok v → onLiterals a b = .ok x →
        Literal.orRespelled v (some a) (some b) x = some l → l.Spells s v)
    (h : make v .linear (Literal.orRespelled v i.literal j.literal x) m = .ok k) :
    Sound s k := by
  refine .of_make h rfl fun l hl => ?_
  obtain ⟨a, b, ha, hb, hz, hl⟩ := Literal.of_orRespelled hx hl
  exact hspells (hi.spells a ha) (hj.spells b hb) hv hz hl

end

theorem Sound.add (hi : Sound s i) (hj : Sound s j) (h : i.add s j = .ok k) : Sound s k := by
  simp only [Interval.add, hi.linear, if_true] at h
  obtain ⟨-, -, h⟩ := bind_eq_ok.mp h
  obtain ⟨x, hx, h⟩ := bind_eq_ok.mp h
  obtain ⟨v, hv, h⟩ := bind_eq_ok.mp h
  exact hi.respelled hj hx hv .add h

theorem Sound.sub (hi : Sound s i) (hj : Sound s j) (h : i.sub s j = .ok k) : Sound s k := by
  simp only [Interval.sub, hi.linear, if_true] at h
  obtain ⟨-, -, h⟩ := bind_eq_ok.mp h
  obtain ⟨x, hx, h⟩ := bind_eq_ok.mp h
  obtain ⟨v, hv, h⟩ := bind_eq_ok.mp h
  exact hi.respelled hj hx hv .sub h

theorem Sound.mul (hi : Sound s i) (hj : Sound s j) (h : i.mul s j = .ok k) : Sound s k := by
  simp only [Interval.mul, hi.linear, hj.linear, ne_eq, not_true_eq_false, false_and, if_false,
    reduceCtorEq] at h
  obtain ⟨x, hx, h⟩ := bind_eq_ok.mp h
  obtain ⟨v, hv, h⟩ := bind_eq_ok.mp h
  exact hi.combined hj hx hv .mul h

theorem Sound.div (hi : Sound s i) (hj : Sound s j) (h : i.div s j = .ok k) : Sound s k := by
  simp only [Interval.div, hi.linear, hj.linear, if_false, reduceCtorEq] at h
  obtain ⟨x, hx, h⟩ := bind_eq_ok.mp h
  obtain ⟨v, hv, h⟩ := bind_eq_ok.mp h
  exact hi.combined hj hx hv .div h

/-- The value of a literal of a ratio denotes the ratio. -/
theorem Sound.toRatio_of_literal {b : Literal} {q : ℚ} (hj : Sound s j)
    (hb : j.literal = some b) (hq : b.exactRatio? = some q) : j.value.toRatio = .ok q := by
  obtain ⟨-, m, hv, hm, hmq, -⟩ := (hj.spells b hb).of_exactRatio? hq
  rw [hv]
  exact hm.toRatio.trans (by rw [hmq])

theorem Sound.pow (hi : Sound s i) (hj : Sound s j) (hadm : Binary.pow.Admits s j.value)
    (h : i.pow s j = .ok k) : Sound s k := by
  obtain ⟨-, -, h⟩ := bind_eq_ok.mp h
  obtain ⟨v, hv, h⟩ := bind_eq_ok.mp h
  refine .of_make h hi.linear fun l hl => ?_
  obtain ⟨a, b, ha, hb, hl⟩ := Literal.of_combine? hl
  exact (hi.spells a ha).pow (hj.spells b hb) hv
    (fun q hq => hadm q (hj.toRatio_of_literal hb hq)) hl

theorem Sound.ipow (hi : Sound s i) (hj : Sound s j) (hadm : Binary.ipow.Admits s j.value)
    (h : i.ipow s j = .ok k) : Sound s k := by
  obtain ⟨-, -, h⟩ := bind_eq_ok.mp h
  obtain ⟨u, hu, h⟩ := bind_eq_ok.mp h
  obtain ⟨v, hv, h⟩ := bind_eq_ok.mp h
  refine .of_make h hi.linear fun l hl => ?_
  obtain ⟨a, b', ha, hb', hl⟩ := Literal.of_combine? hl
  obtain ⟨b, hb, hinvert⟩ := Option.bind_eq_some_iff.mp hb'
  exact (hi.spells a ha).root (hj.spells b hb) hu hv
    (fun q hq => hadm q (hj.toRatio_of_literal hb hq)) hinvert hl

/-- An operator on two linear intervals that goes through the values of written ratios. -/
theorem Sound.of_throughValues {op : Monzo → Monzo → Except Fault Value}
    {real : Approx → Approx → Except Fault Approx} {v : Value} {x : Option Literal}
    {m : Metadata}
    (hop : ∀ {a a' b b' : Monzo}, a.Twins s a' → b.Twins s b' →
      Both (Value.Twins s) (op a b) (op a' b'))
    (hi : Sound s i) (hj : Sound s j) (hv : Value.lift op real i.value j.value = .ok v)
    (hx : ∀ l, x = some l → ∃ a b, i.literal = some a ∧ j.literal = some b ∧
      Literal.throughValues s op a b = some l)
    (h : make v i.domain x m = .ok k) : Sound s k := by
  refine .of_make h hi.linear fun l hl => ?_
  obtain ⟨a, b, ha, hb, hl⟩ := hx l hl
  exact .throughValues hop (hi.spells a ha) (hj.spells b hb) hv hl

theorem Sound.log (hi : Sound s i) (hj : Sound s j) (h : i.log s j = .ok k) : Sound s k := by
  obtain ⟨-, -, h⟩ := bind_eq_ok.mp h
  obtain ⟨v, hv, h⟩ := bind_eq_ok.mp h
  exact .of_throughValues (fun ha hb => ha.log hb) hi hj hv (fun _ => Literal.of_combine?) h

theorem Sound.reduce {ceiling : Bool} (hi : Sound s i) (hj : Sound s j)
    (h : i.reduce s j ceiling = .ok k) : Sound s k := by
  obtain ⟨-, -, h⟩ := bind_eq_ok.mp h
  obtain ⟨v, hv, h⟩ := bind_eq_ok.mp h
  exact .of_throughValues (fun ha hb => ha.reduce hb ceiling) hi hj hv
    (fun _ => Literal.of_combine?) h

theorem Sound.pitchRoundTo (hi : Sound s i) (hj : Sound s j) (h : i.pitchRoundTo s j = .ok k) :
    Sound s k := by
  obtain ⟨-, -, h⟩ := bind_eq_ok.mp h
  simp only at h
  split at h
  · cases h
  · obtain ⟨v, hv, h⟩ := bind_eq_ok.mp h
    exact .of_throughValues (fun ha hb => ha.pitchRoundTo hb) hi hj hv
      (fun _ => Literal.of_combine?) h

theorem Sound.lcm (hi : Sound s i) (hj : Sound s j) (h : i.lcm s j = .ok k) : Sound s k := by
  obtain ⟨-, -, h⟩ := bind_eq_ok.mp h
  obtain ⟨v, hv, h⟩ := bind_eq_ok.mp h
  have hlift : ∀ v w : Value, Value.lcm s v w =
      Value.lift (fun m n => (m.lcm s n).map .exact)
        (fun _ _ => .error (.realDivisors "lcm")) v w := by
    intro v w
    cases v <;> cases w <;> rfl
  rw [hlift] at hv
  exact .of_throughValues (fun ha hb => Value.Twins.map_exact (ha.lcm hb)) hi hj hv
    (fun _ => Literal.of_combine?) h

/-- The same, where combining the literals may fail. -/
theorem Sound.of_combine_throughValues {op : Monzo → Monzo → Except Fault Value}
    {real : Approx → Approx → Except Fault Approx}
    {onLiterals : Literal → Literal → Except Fault (Option Literal)} {v : Value}
    {x : Option Literal} {m : Metadata}
    (hop : ∀ {a a' b b' : Monzo}, a.Twins s a' → b.Twins s b' →
      Both (Value.Twins s) (op a b) (op a' b'))
    (hon : ∀ {a b : Literal}, a.isNumeric → b.isNumeric →
      onLiterals a b = .ok (Literal.throughValues s op a b))
    (hi : Sound s i) (hj : Sound s j) (hv : Value.lift op real i.value j.value = .ok v)
    (hx : Literal.combine onLiterals i.literal j.literal = .ok x)
    (h : make v i.domain x m = .ok k) : Sound s k := by
  refine .of_throughValues hop hi hj hv (fun l hl => ?_) h
  subst hl
  obtain ⟨a, b, ha, hb, hl⟩ := Literal.of_combine hx
  rw [hon (hi.spells a ha).isNumeric (hj.spells b hb).isNumeric] at hl
  exact ⟨a, b, ha, hb, Except.ok.inj hl⟩

theorem Sound.modulo {ceiling : Bool} (hi : Sound s i) (hj : Sound s j)
    (h : i.modulo s j ceiling = .ok k) : Sound s k := by
  simp only [Interval.modulo, hi.linear, if_true] at h
  obtain ⟨-, -, h⟩ := bind_eq_ok.mp h
  obtain ⟨x, hx, h⟩ := bind_eq_ok.mp h
  obtain ⟨v, hv, h⟩ := bind_eq_ok.mp h
  exact .of_combine_throughValues (fun ha hb => ha.modulo hb ceiling)
    Literal.modulo_eq_throughValues hi hj hv hx (hi.linear ▸ h)

theorem Sound.roundTo (hi : Sound s i) (hj : Sound s j) (h : i.roundTo s j = .ok k) :
    Sound s k := by
  simp only [Interval.roundTo, hi.linear, if_true] at h
  obtain ⟨-, -, h⟩ := bind_eq_ok.mp h
  obtain ⟨x, hx, h⟩ := bind_eq_ok.mp h
  obtain ⟨v, hv, h⟩ := bind_eq_ok.mp h
  exact .of_combine_throughValues (fun ha hb => ha.roundTo hb)
    Literal.roundTo_eq_throughValues hi hj hv hx (hi.linear ▸ h)

theorem Sound.lensAdd (hi : Sound s i) (hj : Sound s j) (h : i.lensAdd s j = .ok k) :
    Sound s k := by
  simp only [Interval.lensAdd, hi.linear, if_true] at h
  obtain ⟨-, -, h⟩ := bind_eq_ok.mp h
  obtain ⟨x, hx, h⟩ := bind_eq_ok.mp h
  obtain ⟨v, hv, h⟩ := bind_eq_ok.mp h
  rw [Value.lensAdd_eq_lift] at hv
  exact .of_combine_throughValues (fun ha hb => Value.Twins.lensAdd (.exact ha) (.exact hb))
    Literal.lensAdd_eq_throughValues hi hj hv hx (hi.linear ▸ h)

theorem Sound.lensSub (hi : Sound s i) (hj : Sound s j) (h : i.lensSub s j = .ok k) :
    Sound s k := by
  simp only [Interval.lensSub, hi.linear, if_true] at h
  obtain ⟨-, -, h⟩ := bind_eq_ok.mp h
  obtain ⟨x, hx, h⟩ := bind_eq_ok.mp h
  obtain ⟨v, hv, h⟩ := bind_eq_ok.mp h
  rw [Value.lensSub_eq_lift] at hv
  exact .of_combine_throughValues (fun ha hb => Value.Twins.lensSub (.exact ha) (.exact hb))
    Literal.lensSub_eq_throughValues hi hj hv hx (hi.linear ▸ h)

/-- Every operator on two intervals keeps literals sound. -/
theorem Sound.apply_binary {op : Binary} (hi : Sound s i) (hj : Sound s j)
    (hadm : op.Admits s j.value) (h : op.apply s i j = .ok k) : Sound s k := by
  cases op with
  | add => exact hi.add hj h
  | sub => exact hi.sub hj h
  | mul => exact hi.mul hj h
  | div => exact hi.div hj h
  | pow => exact hi.pow hj hadm h
  | ipow => exact hi.ipow hj hadm h
  | log => exact hi.log hj h
  | reduce ceiling => exact hi.reduce hj h
  | modulo ceiling => exact hi.modulo hj h
  | lensAdd => exact hi.lensAdd hj h
  | lensSub => exact hi.lensSub hj h
  | roundTo => exact hi.roundTo hj h
  | pitchRoundTo => exact hi.pitchRoundTo hj h
  | lcm => exact hi.lcm hj h

end Interval

/-! ## Whole expressions -/

namespace LinearExpr

variable {s : Settings} {context context' : Option Context} {memo memo' memo'' : CommaMemo}
  {i : Interval} {l : Literal}

theorem literal_of_leaf {hl : l.isRatio} (h : ((leaf l hl).eval s context).Returns memo i memo') :
    i.literal = some l := by
  obtain ⟨q, rest, hq, hi⟩ := Memoized.returns_bind.mp h
  have hval : l.isVal = false := by cases l <;> first | rfl | cases hl
  obtain ⟨c, v, -, -, rfl⟩ := (Literal.lower_returns_iff hval).mp hq
  cases (Memoized.returns_ofExcept.mp hi).1
  rfl

/-- Evaluation keeps literals sound: leaves are lowered literals, and operators keep them. -/
theorem sound_eval {e : LinearExpr} (hmodest : e.Modest s context)
    (h : (e.eval s context).Returns memo i memo') : i.Sound s := by
  induction e generalizing i memo memo' with
  | leaf l hl =>
    obtain ⟨q, rest, hq, hi⟩ := Memoized.returns_bind.mp h
    exact .of_lower hl hq (Memoized.returns_ofExcept.mp hi).1
  | unary op e ih =>
    obtain ⟨j, rest, hj, hi⟩ := Memoized.returns_bind.mp h
    exact (ih hmodest hj).apply_unary (Memoized.returns_ofExcept.mp hi).1
  | binary op e f ihe ihf =>
    obtain ⟨he, hf, hadm⟩ := hmodest
    obtain ⟨j, rest, hj, h⟩ := Memoized.returns_bind.mp h
    obtain ⟨k, rest', hk, hi⟩ := Memoized.returns_bind.mp h
    exact (ihe he hj).apply_binary (ihf hf hk) (hadm k rest rest' hk)
      (Memoized.returns_ofExcept.mp hi).1

/-- The root of a sum of fractions, which is spelled as a radical. -/
def rootOfSum : LinearExpr :=
  .binary .pow (.binary .add (.leaf (.fraction 2 6) rfl) (.leaf (.fraction 1 4) rfl))
    (.leaf (.fraction (-1) 2) rfl)

theorem modest_rootOfSum : rootOfSum.Modest {} none := by
  refine ⟨⟨trivial, trivial, fun _ _ _ _ => trivial⟩, trivial, ?_⟩
  intro j memo memo' hj q hq
  have hsound : j.Sound {} := sound_eval (e := .leaf (.fraction (-1) 2) rfl) trivial hj
  have hratio := hsound.toRatio_of_literal (literal_of_leaf hj)
    (show (Literal.fraction (-1) 2).exactRatio? = some (-1 / 2) by decide +kernel)
  rw [hratio] at hq
  cases hq
  decide +kernel

end LinearExpr

end Intonation
