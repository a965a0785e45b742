import Intonation.Proofs.Monzo.Factored

/-!
# Strict equality of ratios

Strict equality compares components over a common basis. On factored values that denote ratios it
compares the ratios, so it does not depend on how either value came about. A comparison does not
always return: the table has to reach the larger of two different bases, and what is widened has to
stay within the bounds in force.

## Main definitions

* `Monzo.Alignable`: two values that can be taken over a common basis
* `Value.ReachedRatio`: the ratios other than zero that a run of operations reaches

## Main statements

* `Monzo.barring_strictEquals`: what a comparison returns and how it fails
* `Monzo.strictEquals_iff`: within bounds, the values that are strictly equal
* `Value.factored_form`: both for all values that a run reaches
-/

namespace Intonation

theorem Prime.powerProduct_take_length (primes : List Nat) (es : List Int) :
    powerProduct primes (es.take primes.length) = powerProduct primes es := by
  induction primes generalizing es with
  | nil => simp [powerProduct]
  | cons p primes ih =>
    cases es with
    | nil => rfl
    | cons e es =>
      rw [List.length_cons, List.take_succ_cons, powerProduct_cons, powerProduct_cons, ih]

namespace Monzo
open Double Intonation.Prime

variable {s : Settings} {a b m n : Monzo} {ns ks : List Int} {count : Nat}

/-! ## Factored ratios -/

/-- A factored ratio is what splitting the ratio gives. -/
theorem Factored.split_ratio (h : m.Factored) (hns : m.exps = wholes ns) (h0 : m.residual ≠ 0) :
    split (table.take m.components) m.ratio = (ns.take tableSize, m.residual) := by
  have hlen : ns.length = m.components := by rw [components, hns, length_wholes]
  refine split_eq_of_eq_mul (distinct_table.take _) ?_ h0 h.free ?_
  · rw [List.length_take, List.length_take, length_table, hlen, min_comm]
  · rw [ratio_eq_of_exps hns, ← powerProduct_take_length table ns, length_table,
      powerProduct_take]
    rw [List.length_take, hlen]
    exact min_le_right _ _

/-- Factored values over one basis that denote the same ratio are the same. -/
theorem Factored.eq_of_ratio_eq (ha : a.Factored) (hb : b.Factored) (hfa : a.isFractional)
    (hfb : b.isFractional) (hlen : a.components = b.components) (ha0 : a.residual ≠ 0)
    (hb0 : b.residual ≠ 0) (h : a.ratio = b.ratio) : a.parts = b.parts := by
  obtain ⟨-, ns, hns⟩ := isFractional_iff.mp hfa
  obtain ⟨-, ks, hks⟩ := isFractional_iff.mp hfb
  have hsplit := ha.split_ratio hns ha0
  rw [h, hlen, hb.split_ratio hks hb0] at hsplit
  obtain ⟨htake, hres⟩ := Prod.mk.injEq .. ▸ hsplit
  -- the first exponents are those of the ratio, and the others are zero on both sides
  have hdrop : a.exps.drop tableSize = b.exps.drop tableSize := by
    rw [List.eq_replicate_of_mem ha.vanish, List.eq_replicate_of_mem hb.vanish, List.length_drop,
      List.length_drop, show a.exps.length = b.exps.length from hlen]
  have hfirst : a.exps.take tableSize = b.exps.take tableSize := by
    rw [hns, hks, wholes, wholes, ← List.map_take, ← List.map_take, htake]
  refine Prod.ext ?_ hres.symm
  show a.exps = b.exps
  rw [← List.take_append_drop tableSize a.exps, hfirst, hdrop, List.take_append_drop]

/-- A factored ratio over more primes. -/
theorem Factored.spread_eq (h : m.Factored) (hfrac : m.isFractional) (h0 : m.residual ≠ 0)
    (hle : m.components ≤ count) (hcount : count ≤ tableSize) :
    spread count m.parts =
      (wholes (split (table.take count) m.ratio).1, (split (table.take count) m.ratio).2) := by
  obtain ⟨-, ns, hns⟩ := isFractional_iff.mp hfrac
  have hlen : ns.length = m.components := by rw [components, hns, length_wholes]
  rcases hle.eq_or_lt with rfl | hlt
  · rw [spread_components, h.split_ratio hns h0, List.take_of_length_le (by omega), ← hns]
    rfl
  · obtain ⟨hsplit, hfree, hproduct⟩ := split_spec (distinct_table.take count) m.residual
    have hres := (residual_split_ne_zero_iff (distinct_table.take count)).mpr h0
    obtain ⟨total, htotal, -, hpowers⟩ :=
      addExponents_wholes ns (split (table.take count) m.residual).1
    have hlength : total.length = (table.take count).length := by
      have hsum := length_addExponents (wholes ns) (split (table.take count) m.residual).1
      rw [htotal, length_wholes, length_wholes, hsplit, length_take_table hcount] at hsum
      rw [length_take_table hcount, hsum]
      omega
    have heq : split (table.take count) m.ratio =
        (total, (split (table.take count) m.residual).2) := by
      refine split_eq_of_eq_mul (distinct_table.take count) hlength hres hfree ?_
      have hpow : powerProduct (table.take count) ns = powerProduct table ns :=
        powerProduct_take table ns (by omega)
      rw [hpowers _ (distinct_table.take count), ratio_eq_of_exps hns, ← hpow]
      conv_lhs => rw [← hproduct]
      ring
    rw [heq, spread, if_pos (by exact hlt), ← htotal, ← hns]
    rfl

/-! ## Comparisons -/

/-- Two values that can be taken over a common basis. -/
def Alignable (a b : Monzo) : Prop :=
  a.components = b.components ∨ max a.components b.components ≤ tableSize

theorem alignable_of_strictEquals {r : Bool} (h : a.strictEquals s b = .ok r) : a.Alignable b := by
  obtain ⟨c, halign, -⟩ := bind_eq_ok.mp h
  obtain ⟨a', ha, halign⟩ := bind_eq_ok.mp halign
  obtain ⟨b', hb, -⟩ := bind_eq_ok.mp halign
  have hreacha := Reaches.of_widen ha
  have hreachb := Reaches.of_widen hb
  unfold Alignable Reaches at *
  omega

section
variable (ha : a.Factored) (hb : b.Factored) (hfa : a.isFractional) (hfb : b.isFractional)
  (ha0 : a.residual ≠ 0) (hb0 : b.residual ≠ 0)
include ha hb hfa hfb ha0 hb0

/-- A comparison over one basis. -/
theorem compare_parts (hlen : a.components = b.components) :
    (decide (a.time = b.time) && decide (a.exps = b.exps) && decide (a.residual = b.residual) &&
      a.cents == b.cents) = decide (a.time = b.time ∧ a.ratio = b.ratio) := by
  have hcents := beq_of_beq_zero (isFractional_iff.mp hfa).1 (isFractional_iff.mp hfb).1
  have hiff : a.ratio = b.ratio ↔ a.exps = b.exps ∧ a.residual = b.residual := by
    refine ⟨fun h => Prod.ext_iff.mp (ha.eq_of_ratio_eq hb hfa hfb hlen ha0 hb0 h), ?_⟩
    rintro ⟨hexps, hres⟩
    rw [ratio, ratio, hexps, hres]
  simp [hcents, hiff, Bool.and_assoc]

/-- A comparison tells whether the ratios are equal, or else a bound is exceeded on the way to the
common basis, or the table is exhausted. -/
theorem barring_strictEquals :
    Barring (¬ a.Alignable b) (· = decide (a.time = b.time ∧ a.ratio = b.ratio))
      (a.strictEquals s b) := by
  by_cases hlen : a.components = b.components
  · rw [Monzo.strictEquals, align_of_components_eq hlen]
    exact compare_parts ha hb hfa hfb ha0 hb0 hlen
  · have hratio : ∀ {m : Monzo}, m.Factored → m.isFractional →
        m.components ≤ max a.components b.components →
          m.IsRatio (¬ a.Alignable b) m.time m.ratio := by
      intro m hm hfm hle
      refine .of_toRatio (if_pos hfm) hm.vanish ?_
      by_cases hmax : max a.components b.components ≤ tableSize
      · exact .inl (hle.trans hmax)
      · exact .inr fun halign => halign.elim hlen hmax
    have hra := hratio ha hfa (le_max_left _ _)
    have hrb := hratio hb hfb (le_max_right _ _)
    refine ((hra.align hrb).and_of_ok (Ensures.iff_forall.mp (ha.align hb))).bind ?_
    rintro ⟨c, d⟩ ⟨⟨hc, hd, hcd⟩, hfactc, hfactd, -⟩
    have hc0 : c.residual ≠ 0 := by
      rwa [ne_eq, hc.residual_eq_zero_iff, ← hra.residual_eq_zero_iff]
    have hd0 : d.residual ≠ 0 := by
      rwa [ne_eq, hd.residual_eq_zero_iff, ← hrb.residual_eq_zero_iff]
    rw [← hc.time, ← hd.time, ← hc.ratio_eq, ← hd.ratio_eq]
    exact compare_parts hfactc hfactd hc.isFractional hd.isFractional hc0 hd0 hcd

/-- Within the bounds in force, two ratios are strictly equal when they are the same ratio with
the same time units, if they can be aligned at all. -/
theorem strictEquals_iff (hbounda : boundsFault? s a = none) (hboundb : boundsFault? s b = none) :
    a.strictEquals s b = .ok true ↔ a.Alignable b ∧ a.time = b.time ∧ a.ratio = b.ratio := by
  have houtcome := barring_strictEquals (s := s) ha hb hfa hfb ha0 hb0
  have hcentsa := (isFractional_iff.mp hfa).1
  have hcentsb := (isFractional_iff.mp hfb).1
  constructor
  · intro h
    rw [h] at houtcome
    exact ⟨alignable_of_strictEquals h, of_decide_eq_true houtcome.symm⟩
  · rintro ⟨hlen | hmax, htime, hratio⟩
    · exact strictEquals_of_parts (ha.eq_of_ratio_eq hb hfa hfb hlen ha0 hb0 hratio) htime hcentsa
        hcentsb
    · refine strictEquals_of_spread (by omega) (by omega) hbounda hboundb htime hcentsa hcentsb ?_
      rw [ha.spread_eq hfa ha0 (le_max_left _ _) hmax, hb.spread_eq hfb hb0 (le_max_right _ _) hmax,
        hratio]

end

end Monzo

namespace Value
open Intonation.Prime

/-- A ratio other than zero that a run of operations reaches. -/
structure ReachedRatio (m : Monzo) : Prop where
  reached : Reached (.exact m)
  nonzero : m.residual ≠ 0
  fractional : m.isFractional

namespace ReachedRatio

variable {s : Settings} {a b : Monzo}

theorem factored (h : ReachedRatio a) : a.Factored := h.reached.factored

theorem strictEquals_iff (ha : ReachedRatio a) (hb : ReachedRatio b)
    (hbounda : Monzo.boundsFault? s a = none) (hboundb : Monzo.boundsFault? s b = none) :
    a.strictEquals s b = .ok true ↔ a.Alignable b ∧ a.time = b.time ∧ a.ratio = b.ratio :=
  Monzo.strictEquals_iff ha.factored hb.factored ha.fractional hb.fractional ha.nonzero hb.nonzero
    hbounda hboundb

/-- Strict equality is an equivalence among the ratios within the bounds in force. -/
theorem equivalence (s : Settings) :
    Equivalence fun a b : {m // ReachedRatio m ∧ Monzo.boundsFault? s m = none} =>
      a.1.strictEquals s b.1 = .ok true where
  refl a := (a.2.1.strictEquals_iff a.2.1 a.2.2 a.2.2).mpr ⟨.inl rfl, rfl, rfl⟩
  symm {a b} h := by
    obtain ⟨halign, htime, hratio⟩ := (a.2.1.strictEquals_iff b.2.1 a.2.2 b.2.2).mp h
    refine (b.2.1.strictEquals_iff a.2.1 b.2.2 a.2.2).mpr ⟨?_, htime.symm, hratio.symm⟩
    exact halign.imp Eq.symm fun hmax => max_comm a.1.components b.1.components ▸ hmax
  trans {a b c} hab hbc := by
    obtain ⟨halign, htime, hratio⟩ := (a.2.1.strictEquals_iff b.2.1 a.2.2 b.2.2).mp hab
    obtain ⟨halign', htime', hratio'⟩ := (b.2.1.strictEquals_iff c.2.1 b.2.2 c.2.2).mp hbc
    refine (a.2.1.strictEquals_iff c.2.1 a.2.2 c.2.2).mpr
      ⟨?_, htime.trans htime', hratio.trans hratio'⟩
    unfold Monzo.Alignable at *
    omega

end ReachedRatio

/-- Whatever run of operations reaches a value, under whatever settings on the way: a value that is
not zero has no prime of its basis in the residual. A comparison of two ratios that returns tells
whether they have the same time units and are the same ratio. It fails when a bound in force is
exceeded on the way to the larger basis, or when bases differ and the table does not reach the
larger one. Values within the bounds in force are strictly equal exactly when they are the same
ratio, if they can be aligned, and this is an equivalence. -/
theorem factored_form (s : Settings) :
    (∀ m : Monzo, Reached (.exact m) → m.residual ≠ 0 → ∀ p ∈ table.take m.components,
        ¬ p ∣ m.residual.num.natAbs ∧ ¬ p ∣ m.residual.den) ∧
      (∀ a b : Monzo, ReachedRatio a → ReachedRatio b →
        Barring (¬ a.Alignable b) (· = decide (a.time = b.time ∧ a.ratio = b.ratio))
          (a.strictEquals s b)) ∧
      (∀ a b : Monzo, ReachedRatio a → ReachedRatio b → Monzo.boundsFault? s a = none →
        Monzo.boundsFault? s b = none →
          (a.strictEquals s b = .ok true ↔ a.Alignable b ∧ a.time = b.time ∧ a.ratio = b.ratio)) ∧
      Equivalence fun a b : {m // ReachedRatio m ∧ Monzo.boundsFault? s m = none} =>
        a.1.strictEquals s b.1 = .ok true := by
  refine ⟨fun m hm h0 p hp => ?_, fun a b ha hb => ?_, fun a b ha hb => ha.strictEquals_iff hb,
    ReachedRatio.equivalence s⟩
  · exact hm.factored.free.not_dvd (distinct_table.take _) h0 hp
  · exact Monzo.barring_strictEquals ha.factored hb.factored ha.fractional hb.fractional ha.nonzero
      hb.nonzero

theorem Reached.of_split {s : Settings} {count : Nat} {q r : ℚ} {ns : List Int}
    (hcount : count ≤ tableSize) (h : split (table.take count) q = (ns, r))
    (hbounded : Monzo.boundsFault? s { exps := Monzo.wholes ns, residual := r } = none) :
    Reached (.exact { exps := Monzo.wholes ns, residual := r }) := by
  refine .built s (.ratio count q) (map_eq_ok.mpr ⟨_, Monzo.ofRatioOver_eq_ok_iff.mpr
    ⟨hcount, ?_⟩, rfl⟩)
  rw [h]
  exact Monzo.checked_eq_ok_iff.mpr ⟨hbounded, rfl⟩

/-- Two thirds over one prime, with another prime in the residual, and two thirds over three
primes, reached by a change of sign. -/
theorem factored_form_twoThirds :
    let a : Monzo := { exps := [1], residual := 1 / 3 }
    let b : Monzo := { exps := [1, -1, 0] }
    ReachedRatio a ∧ ReachedRatio b ∧ a.strictEquals {} b = .ok true := by
  intro a b
  have hnarrow : split (table.take 1) (10 / 15) = ([1], 1 / 3) := by decide +kernel
  have hwide : split (table.take 3) (-2 / 3) = ([1, -1, 0], -1) := by decide +kernel
  have ha : ReachedRatio a :=
    ⟨.of_split (s := {}) (by decide) hnarrow (by decide +kernel), by decide +kernel,
      by decide +kernel⟩
  have hb : ReachedRatio b := by
    refine ⟨.unary {} .neg (.of_split (s := {}) (by decide) hwide (by decide +kernel))
      (map_eq_ok.mpr ⟨b, Monzo.checked_eq_ok_iff.mpr ⟨by decide +kernel, ?_⟩, rfl⟩), ?_, ?_⟩
    · rfl
    · exact one_ne_zero
    · decide +kernel
  refine ⟨ha, hb, ?_⟩
  exact ((factored_form {}).2.2.1 a b ha hb (by decide +kernel) (by decide +kernel)).mpr
    ⟨.inr (by decide), rfl, by decide +kernel⟩

/-- One over more components than the table has primes is not compared with one over nine, and
under a tighter bound two to the tenth is not compared with itself over another basis. -/
theorem strictEquals_out_of_range :
    (let wide : Monzo := { exps := List.replicate 1001 0 }
      let narrow : Monzo := { exps := List.replicate 9 0 }
      ReachedRatio wide ∧ ReachedRatio narrow ∧ wide.time = narrow.time ∧
        wide.ratio = narrow.ratio ∧ wide.strictEquals {} narrow = .error .tableExhausted) ∧
      (let residue : Monzo := { exps := [], residual := 1024 }
        let power : Monzo := { exps := [10] }
        ReachedRatio residue ∧ ReachedRatio power ∧ residue.time = power.time ∧
          residue.ratio = power.ratio ∧
          residue.strictEquals { absurdExponent := 5 } power = .error (.exponentBound 2 10)) := by
  have hone : ∀ count, ReachedRatio { exps := List.replicate count 0 } ∧
      Monzo.ratio { exps := List.replicate count 0 } = 1 ∧
      Monzo.IsVector {} { exps := List.replicate count 0 } (List.replicate count 0) := by
    intro count
    have hunity := Monzo.unity_eq (s := {}) (by decide) count
    have hexps : List.replicate count 0 = Monzo.wholes (List.replicate count 0) := by
      rw [Monzo.wholes, List.map_replicate, Int.cast_zero]
    refine ⟨⟨.built {} (.unity count) (map_eq_ok.mpr ⟨_, hunity, rfl⟩), one_ne_zero,
      Monzo.isFractional_iff.mpr ⟨Double.zero_beq_zero, _, hexps⟩⟩, ?_,
      (Monzo.unity_spec hunity).2.2.2.2⟩
    rw [Monzo.ratio_eq_of_exps hexps, powerProduct_eq_one fun e he => List.eq_of_mem_replicate he,
      mul_one]
  have hnone : split (table.take 0) 1024 = ([], 1024) := by decide +kernel
  have hten : split (table.take 1) 1024 = ([10], 1) := by decide +kernel
  obtain ⟨hwide, hratiow, hvectorw⟩ := hone 1001
  obtain ⟨hnarrow, hration, hvectorn⟩ := hone 9
  refine ⟨⟨hwide, hnarrow, rfl, hratiow.trans hration.symm, ?_⟩, ?_, ?_, rfl, ?_, ?_⟩
  · rw [Monzo.strictEquals_ones hvectorw hvectorn]
    decide
  · exact ⟨.of_split (s := {}) (by decide) hnone (by decide +kernel), by decide +kernel,
      by decide +kernel⟩
  · exact ⟨.of_split (s := {}) (by decide) hten (by decide +kernel), one_ne_zero,
      by decide +kernel⟩
  · decide +kernel
  · decide +kernel

end Value

end Intonation
