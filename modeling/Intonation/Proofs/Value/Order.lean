import Intonation.Proofs.Monzo.Comparison
import Intonation.Proofs.Value.Commutativity

/-!
# The order of ratios

A comparison of two exact values first asks whether they are strictly equal, over a common basis,
and only then compares numbers. On values that denote ratios the first question does not matter:
widening keeps the ratio, so a comparison that returns tells the order of the two ratios, however
either is factored.

Equality looks at time units and the order does not. The relations derived from the two are those
of one total order among values of the same units. Across units a ratio is neither less than, equal
to nor greater than itself.

## Main definitions

* `Comparison`: the comparisons derived from an order and an equality

## Main statements

* `Value.compare_exact`: a comparison of ratios
* `Value.order_of_ratios`: when the order and the equality of ratios agree
-/

namespace Intonation

namespace Monzo
open Intonation.Prime

variable {s : Settings} {a b m n : Monzo} {count : Nat}

/-- Widening keeps the ratio of every value, whether its exponents are within bounds or not: a
value that is widened at all has no exponents beyond the table. -/
theorem ratio_of_widen (hfrac : m.isFractional) (h : m.widen s count = .ok n) :
    n.ratio = m.ratio := by
  by_cases hlt : m.components < count
  · have hcount : count ≤ tableSize := by
      have hreach := Reaches.of_widen h
      unfold Reaches at hreach
      omega
    have hzero : ∀ e ∈ m.exps.drop tableSize, e = 0 := by
      rw [List.drop_of_length_le (by exact hlt.le.trans hcount)]
      simp
    have hratio : m.IsRatio False m.time m.ratio :=
      .of_toRatio (if_pos hfrac) hzero (.inl (hlt.le.trans hcount))
    have hwide := hratio.widen (s := s) (.inl hcount)
    rw [h] at hwide
    exact hwide.1.ratio_eq
  · rw [widen, if_neg hlt] at h
    cases h
    rfl

theorem ratio_eq_of_strictEquals (hfa : a.isFractional) (hfb : b.isFractional)
    (h : a.strictEquals s b = .ok true) : a.ratio = b.ratio := by
  obtain ⟨⟨c, d⟩, halign, hequal⟩ := bind_eq_ok.mp h
  obtain ⟨c, hc, halign⟩ := bind_eq_ok.mp halign
  obtain ⟨d, hd, halign⟩ := bind_eq_ok.mp halign
  cases halign
  have hsame : (decide (c.time = d.time) && decide (c.exps = d.exps) &&
      decide (c.residual = d.residual) && c.cents == d.cents) = true := Except.ok.inj hequal
  simp only [Bool.and_eq_true, decide_eq_true_eq] at hsame
  obtain ⟨⟨⟨-, hexps⟩, hres⟩, -⟩ := hsame
  rw [← ratio_of_widen hfa hc, ← ratio_of_widen hfb hd, ratio, ratio, hexps, hres]

end Monzo

/-! ## Signs -/

theorem signOf_swap (less greater : Bool) : signOf greater less = -signOf less greater := by
  cases less <;> cases greater <;> rfl

theorem signOf_lt_zero {p q : ℚ} : signOf (p < q) (q < p) < 0 ↔ p < q := by
  rcases lt_trichotomy p q with h | rfl | h
  · simp [signOf, h, h.not_gt]
  · simp [signOf]
  · simp [signOf, h, h.not_gt]

theorem signOf_le_zero {p q : ℚ} : signOf (p < q) (q < p) ≤ 0 ↔ p ≤ q := by
  rw [← not_lt, ← neg_lt_zero, ← signOf_swap, signOf_lt_zero, not_lt]

theorem signOf_eq_zero {p q : ℚ} : signOf (p < q) (q < p) = 0 ↔ p = q := by
  rw [le_antisymm_iff, le_antisymm_iff, signOf_le_zero, ← neg_nonpos, ← signOf_swap,
    signOf_le_zero]

/-! ## Derived comparisons -/

/-- A comparison of two values, by their order and their equality alone. -/
inductive Comparison
  | lt
  | le
  | eq
  | ge
  | gt

namespace Comparison

/-- What a comparison of two values returns. -/
def holds (s : Settings) (c : Comparison) (v w : Value) : Except Fault Bool :=
  match c with
  | eq => .ok (v.equals w)
  | lt => do .ok ((← v.compare s w) < 0)
  | le => do .ok ((← v.compare s w) < 0 || v.equals w)
  | ge => do .ok !((← v.compare s w) < 0)
  | gt => do .ok (!((← v.compare s w) < 0) && !v.equals w)

/-- The comparison of two ratios. -/
def onRatios (c : Comparison) (p q : ℚ) : Prop :=
  match c with
  | lt => p < q
  | le => p ≤ q
  | eq => p = q
  | ge => p ≥ q
  | gt => p > q

end Comparison

namespace Value

variable {s : Settings} {a b c : Monzo} {p q r : ℚ}

section
variable (hfa : a.isFractional) (hfb : b.isFractional)
include hfa hfb

/-- A comparison of two ratios is that of the ratios, whenever there is a common basis. -/
theorem compare_exact : (exact a).compare s (exact b) =
    (a.align s b).map fun _ => signOf (a.ratio < b.ratio) (b.ratio < a.ratio) := by
  have hnumbers : (exact a).compareNumbers (exact b) =
      signOf (a.ratio < b.ratio) (b.ratio < a.ratio) := by
    rw [compareNumbers, hfa, hfb, Bool.and_self, if_pos rfl]
  have hbind : (exact a).compare s (exact b) = a.strictEquals s b >>= fun equal =>
      if equal then .ok 0 else .ok ((exact a).compareNumbers (exact b)) := rfl
  rw [hbind, hnumbers]
  cases halign : a.align s b with
  | error f =>
    rw [Monzo.strictEquals, halign]
    rfl
  | ok pair =>
    -- what strict equality finds to be equal has the same ratio, so the order says so as well
    cases hequal : a.strictEquals s b with
    | error f =>
      rw [Monzo.strictEquals, halign] at hequal
      cases hequal
    | ok equal =>
      cases equal with
      | false => rfl
      | true =>
        have hratio := Monzo.ratio_eq_of_strictEquals hfa hfb hequal
        show Except.ok 0 = Except.ok (signOf (a.ratio < b.ratio) (b.ratio < a.ratio))
        rw [signOf_eq_zero.mpr hratio]

theorem equals_exact :
    (exact a).equals (exact b) = decide (a.time = b.time ∧ a.ratio = b.ratio) := by
  have hfracs : (a.isFractional && b.isFractional) = true := by rw [hfa, hfb, Bool.and_self]
  show (decide (a.time = b.time) && if (a.isFractional && b.isFractional) = true
    then decide (a.ratio = b.ratio) else a.valueOf == b.valueOf) = _
  rw [if_pos hfracs, Bool.decide_and]

theorem compare_swap : (exact b).compare s (exact a) =
    ((exact a).compare s (exact b)).map Neg.neg := by
  rw [compare_exact hfa hfb, compare_exact hfb hfa, Monzo.align_swap s a b]
  cases a.align s b with
  | error f => rfl
  | ok pair =>
    show Except.ok _ = Except.ok _
    rw [signOf_swap]

theorem eq_of_compare {x : Int} (h : (exact a).compare s (exact b) = .ok x) :
    x = signOf (a.ratio < b.ratio) (b.ratio < a.ratio) := by
  rw [compare_exact hfa hfb] at h
  obtain ⟨-, -, rfl⟩ := map_eq_ok.mp h
  rfl

/-- Among values of the same units the relations are those of their ratios. -/
theorem holds_iff (htime : a.time = b.time) (c : Comparison) :
    Ensures (· = true ↔ c.onRatios a.ratio b.ratio)
      (c.holds s (exact a) (exact b)) := by
  have hequals : (exact a).equals (exact b) = decide (a.ratio = b.ratio) := by
    rw [equals_exact hfa hfb]
    simp [htime]
  have hcompare : Ensures (fun x => x < 0 ↔ a.ratio < b.ratio)
      ((exact a).compare s (exact b)) := by
    refine Ensures.iff_forall.mpr fun x hx => ?_
    rw [eq_of_compare hfa hfb hx, signOf_lt_zero]
  cases c with
  | eq =>
    show (exact a).equals (exact b) = true ↔ a.ratio = b.ratio
    rw [hequals, decide_eq_true_eq]
  | lt =>
    refine hcompare.bind fun x hx => ?_
    show decide (x < 0) = true ↔ a.ratio < b.ratio
    rw [decide_eq_true_eq, hx]
  | le =>
    refine hcompare.bind fun x hx => ?_
    show (decide (x < 0) || (exact a).equals (exact b)) = true ↔ a.ratio ≤ b.ratio
    rw [hequals, Bool.or_eq_true, decide_eq_true_eq, decide_eq_true_eq, hx, le_iff_lt_or_eq]
  | ge =>
    refine hcompare.bind fun x hx => ?_
    show (!decide (x < 0)) = true ↔ b.ratio ≤ a.ratio
    rw [Bool.not_eq_true', decide_eq_false_iff_not, hx, not_lt]
  | gt =>
    refine hcompare.bind fun x hx => ?_
    show (!decide (x < 0) && !(exact a).equals (exact b)) = true ↔ b.ratio < a.ratio
    rw [hequals, Bool.and_eq_true, Bool.not_eq_true', Bool.not_eq_true', decide_eq_false_iff_not,
      decide_eq_false_iff_not, hx, not_lt, lt_iff_le_and_ne, ne_comm]

end

theorem exactlyOne_iff {t u : ℚ} :
    [decide (p < q), decide (t = u ∧ p = q), decide (q < p)].count true = 1 ↔ t = u ∨ p ≠ q := by
  rcases lt_trichotomy p q with h | rfl | h
  · simp [h, h.ne, h.not_gt]
  · by_cases htime : t = u <;> simp [htime]
  · simp [h, h.ne', h.not_gt]

/-- Comparisons of ratios, of whatever units, signs and bases, in whatever form. A comparison that
returns gives the order of the ratios, the opposite one when the operands are swapped, and is
transitive. Exactly one of less, equal and greater holds unless the values are the same ratio in
different units, when none of them does. Among values of the same units all relations are those of
the ratios. -/
theorem order_of_ratios (s : Settings) (ha : a.toRatio = .ok p) (hb : b.toRatio = .ok q)
    (hc : c.toRatio = .ok r) :
    (exact a).compare s (exact b) = (a.align s b).map (fun _ => signOf (p < q) (q < p)) ∧
      (exact b).compare s (exact a) = ((exact a).compare s (exact b)).map Neg.neg ∧
      (∀ x y, (exact a).compare s (exact b) = .ok x → (exact b).compare s (exact a) = .ok y →
        ([decide (x < 0), (exact a).equals (exact b), decide (y < 0)].count true = 1 ↔
          a.time = b.time ∨ p ≠ q)) ∧
      (∀ x y z, (exact a).compare s (exact b) = .ok x → (exact b).compare s (exact c) = .ok y →
        (exact a).compare s (exact c) = .ok z → x ≤ 0 → y ≤ 0 →
          z ≤ 0 ∧ (z = 0 ↔ x = 0 ∧ y = 0)) ∧
      (a.time = b.time → ∀ order : Comparison,
        Ensures (· = true ↔ order.onRatios p q) (order.holds s (exact a) (exact b))) := by
  have hratio : ∀ {m : Monzo} {t : ℚ}, m.toRatio = .ok t → m.isFractional ∧ m.ratio = t := by
    intro m t h
    rw [Monzo.toRatio] at h
    split at h
    · next hfrac => exact ⟨hfrac, Except.ok.inj h⟩
    · cases h
  obtain ⟨hfa, rfl⟩ := hratio ha
  obtain ⟨hfb, rfl⟩ := hratio hb
  obtain ⟨hfc, rfl⟩ := hratio hc
  refine ⟨compare_exact hfa hfb, compare_swap hfa hfb, fun x y hx hy => ?_,
    fun x y z hx hy hz hx0 hy0 => ?_, holds_iff hfa hfb⟩
  · rw [eq_of_compare hfa hfb hx, eq_of_compare hfb hfa hy, equals_exact hfa hfb]
    simp only [signOf_lt_zero]
    exact exactlyOne_iff
  · rw [eq_of_compare hfa hfb hx] at hx0 ⊢
    rw [eq_of_compare hfb hfc hy] at hy0 ⊢
    rw [eq_of_compare hfa hfc hz]
    rw [signOf_le_zero] at hx0 hy0
    rw [signOf_le_zero, signOf_eq_zero, signOf_eq_zero, signOf_eq_zero]
    refine ⟨hx0.trans hy0, fun h => ?_, fun h => h.1.trans h.2⟩
    have hab : a.ratio = b.ratio := hx0.antisymm (hy0.trans_eq h.symm)
    exact ⟨hab, hab.symm.trans h⟩

/-- Three halves over one prime with the rest unfactored, five thirds over three primes and two
over none. -/
theorem order_of_ratios_sixth :
    let fifth : Monzo := { exps := [-1], residual := 3 }
    let sixth : Monzo := { exps := [0, -1, 1] }
    let octave : Monzo := { exps := [], residual := 2 }
    fifth.toRatio = .ok (3 / 2) ∧ sixth.toRatio = .ok (5 / 3) ∧ octave.toRatio = .ok 2 ∧
      (exact sixth).compare {} (exact fifth) =
        ((exact fifth).compare {} (exact sixth)).map Neg.neg := by
  intro fifth sixth octave
  have hfifth : fifth.toRatio = .ok (3 / 2) := by decide +kernel
  have hsixth : sixth.toRatio = .ok (5 / 3) := by decide +kernel
  have hoctave : octave.toRatio = .ok 2 := by decide +kernel
  exact ⟨hfifth, hsixth, hoctave, (order_of_ratios {} hfifth hsixth hoctave).2.1⟩

/-- The number 440 is neither less than, equal to nor greater than 440 Hz by comparisons and
equality, and each is greater than the other by the relation derived from these. -/
theorem compare_hertz :
    let number : Monzo := { exps := [3, 0, 1, 0, 1, 0, 0, 0, 0] }
    let frequency : Monzo := { number with time := -1 }
    number.toRatio = .ok 440 ∧ frequency.toRatio = .ok 440 ∧
      (exact number).compare {} (exact frequency) = .ok 0 ∧
      (exact number).equals (exact frequency) = false ∧
      (exact frequency).compare {} (exact number) = .ok 0 ∧
      Comparison.gt.holds {} (exact number) (exact frequency) = .ok true ∧
      Comparison.gt.holds {} (exact frequency) (exact number) = .ok true := by
  decide +kernel

end Value

end Intonation
