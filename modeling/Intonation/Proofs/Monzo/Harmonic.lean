import Intonation.Interval.Arithmetic
import Intonation.Proofs.Monzo.Inversion

/-!
# Harmonic sums of values

The harmonic sum of two ratios is the reciprocal of the sum of their reciprocals. The harmonic sum
of two logarithmic values is the geometric inverse of the product of their geometric inverses: over
vectors this is the dual of the sum of the dual vectors, so that a harmonic difference gives the
first vector back, with zeros behind it where the second one is longer.

## Main definitions

* `Monzo.Inverted`: a value, its vector and its geometric inverse
* `Monzo.SummableRatios`, `Monzo.SummableVectors`: operands of harmonic sums

## Main statements

* `Monzo.IsVector.barring_mul`, `Monzo.IsVector.barring_div`: products and quotients of vectors
* `Monzo.SummableRatios.barring_undone`, `Monzo.SummableVectors.barring_undone`: a harmonic
  difference undoes a harmonic sum
-/

namespace Intonation
open Double Intonation.Prime

theorem padded_max (count : Nat) (es : List ℚ) :
    padded (max es.length count) es = padded count es := by
  rw [padded, padded, show max es.length count - es.length = count - es.length by omega]

namespace Literal

/-- Taking a vector away again leaves zeros where it is longer. -/
theorem zipEntries_sub_add (xs ys : List ℚ) :
    zipEntries (· - ·) (zipEntries (· + ·) xs ys) ys = padded ys.length xs := by
  have hnil : ∀ count, padded (count + 1) [] = 0 :: padded count [] := fun count => by
    rw [padded_nil, padded_nil, List.replicate_succ]
  fun_induction zipEntries (· + ·) xs ys with
  | case1 => exact zipEntries_nil
  | case2 x xs ih =>
    rw [List.length_nil, padded_of_le (Nat.zero_le _)] at ih ⊢
    rw [zipEntries, ih, add_zero, sub_zero]
  | case3 y ys ih => rw [zipEntries, ih, zero_add, sub_self, List.length_cons, hnil]
  | case4 x xs y ys ih => rw [zipEntries, ih, add_sub_cancel_right, List.length_cons,
      padded_succ_cons]

end Literal

namespace Monzo

variable {s : Settings} {a b m n x y : Monzo} {es fs : List ℚ} {wide : Prop} {count : Nat}

/-! ## Arithmetic of vectors up to overflow -/

namespace IsVector

/-- Widening a vector fails only where the table is exhausted. -/
theorem barring_widen (h : IsVector s m es)
    (hcount : count ≤ es.length ∨ count ≤ tableSize ∨ wide) :
    Barring wide (fun n => IsVector s n (padded count es)) (m.widen s count) := by
  by_cases htable : count ≤ tableSize
  · obtain ⟨n, hn⟩ := h.exists_widen htable
    rw [hn]
    exact h.widen hn
  · by_cases hlt : m.components < count
    · have hwide : wide := (hcount.resolve_left (h.components ▸ hlt.not_ge)).resolve_left htable
      rw [widen_of_lt hlt (not_le.mp htable)]
      exact .inr (.inr ⟨rfl, hwide⟩)
    · rw [Monzo.widen, if_neg hlt, padded_of_le (h.components ▸ not_lt.mp hlt)]
      exact h

/-- Two vectors are combined over a common number of primes unless the table is exhausted. -/
def Compatible (wide : Prop) (es fs : List ℚ) : Prop :=
  es.length = fs.length ∨ max es.length fs.length ≤ tableSize ∨ wide

theorem barring_align (ha : IsVector s a es) (hb : IsVector s b fs)
    (h : Compatible wide es fs) : Barring wide (fun c =>
      IsVector s c.1 (padded fs.length es) ∧ IsVector s c.2 (padded es.length fs))
      (Monzo.align s a b) := by
  have hfs := h.imp Eq.ge (Or.imp_left (le_max_right es.length fs.length).trans)
  have hes := h.imp Eq.le (Or.imp_left (le_max_left es.length fs.length).trans)
  unfold Monzo.align
  rw [ha.components, hb.components]
  exact (ha.barring_widen hfs).bind fun c hc => (hb.barring_widen hes).bind fun d hd => ⟨hc, hd⟩

/-- The product of vectors is the vector of the sums. -/
theorem barring_mul (ha : IsVector s a es) (hb : IsVector s b fs) (h : Compatible wide es fs) :
    Barring wide (IsVector s · (Literal.zipEntries (· + ·) es fs)) (a.mul s b) := by
  suffices hbarring : Barring wide (fun _ => True) (a.mul s b) from
    (hbarring.and_of_ok fun m hm => ha.mul hb hm).mono fun _ hm => hm.2
  refine (ha.barring_align hb h).bind fun ⟨c, d⟩ ⟨hc, hd⟩ => ?_
  have hzero : ∀ e ∈ (c.exps.zipWith (· + ·) d.exps).drop tableSize, e = 0 :=
    IsRatio.vanish_zipWith (add_zero 0) (vanish_of_bounded hc.bounded)
      (vanish_of_bounded hd.bounded)
  exact (barring_checked (m := {
    time := c.time + d.time
    exps := c.exps.zipWith (· + ·) d.exps
    residual := c.residual * d.residual
    cents := c.cents + d.cents }) wide hzero
    (add_beq_zero hc.uncorrected hd.uncorrected)).mono fun _ _ => trivial

/-- The quotient of vectors is the vector of the differences. -/
theorem barring_div (ha : IsVector s a es) (hb : IsVector s b fs) (h : Compatible wide es fs) :
    Barring wide (fun v => ∃ m : Monzo, v = .exact m ∧
      IsVector s m (Literal.zipEntries (· - ·) es fs)) (a.div s b) := by
  suffices hbarring : Barring wide (fun _ => True) (a.div s b) from
    (hbarring.and_of_ok fun v hv => ha.div hb hv).mono fun _ hv => hv.2
  unfold Monzo.div
  rw [hb.residual, if_neg one_ne_zero]
  refine Barring.map (P := fun _ => True) ?_ fun _ _ => trivial
  refine (ha.barring_align hb h).bind fun ⟨c, d⟩ ⟨hc, hd⟩ => ?_
  have hzero : ∀ e ∈ (c.exps.zipWith (· - ·) d.exps).drop tableSize, e = 0 :=
    IsRatio.vanish_zipWith (sub_zero 0) (vanish_of_bounded hc.bounded)
      (vanish_of_bounded hd.bounded)
  exact (barring_checked (m := {
    time := c.time - d.time
    exps := c.exps.zipWith (· - ·) d.exps
    residual := c.residual / d.residual
    cents := c.cents - d.cents }) wide hzero
    (sub_beq_zero hc.uncorrected hd.uncorrected)).mono fun _ _ => trivial

/-- Vectors that have a product need no primes beyond the table. -/
theorem compatible_of_mul (ha : IsVector s a es) (hb : IsVector s b fs) (h : a.mul s b = .ok m) :
    Compatible False es fs := by
  obtain ⟨⟨c, d⟩, halign, -⟩ := bind_eq_ok.mp h
  obtain ⟨a', ha', halign⟩ := bind_eq_ok.mp halign
  obtain ⟨b', hb', -⟩ := bind_eq_ok.mp halign
  have hreacha := Reaches.of_widen ha'
  have hreachb := Reaches.of_widen hb'
  unfold Reaches at hreacha hreachb
  rw [ha.components, hb.components] at hreacha hreachb
  unfold Compatible
  omega

end IsVector

/-! ## Combining geometric inverses -/

/-- The sum of the dual vectors. -/
def dualSum (es fs : List ℚ) : List ℚ := Literal.zipEntries (· + ·) (dual es) (dual fs)

/-- A value over the primes of its vector, and its geometric inverse. -/
structure Inverted (s : Settings) (m : Monzo) (es : List ℚ) (x : Monzo) : Prop where
  unfolds : m.Unfolds es
  ne_zero : pairing es es ≠ 0
  inverse : m.geometricInverse s = .ok x
  vector : IsVector s x (dual es)

namespace Directed

variable (hm : m.Directed) (hmf : m.Foldable) (hn : n.Directed) (hnf : n.Foldable)
include hm hmf

theorem barring_inverted :
    Barring False (fun x => ∃ es, Inverted s m es x) (m.geometricInverse s) := by
  refine ((hm.barring_geometricInverse hmf).and_of_ok fun x hx => hx).mono ?_
  rintro x ⟨⟨es, hes, h0, hvector⟩, hx⟩
  exact ⟨es, hes, h0, hx, hvector⟩

theorem barring_dot_self : Barring False (· ≠ 0) (m.dot s m) := by
  have hbarring := hm.barring_folded hmf (s := s)
  cases hfolded : m.folded s with
  | error f =>
    rw [hfolded] at hbarring
    unfold Monzo.dot
    rw [hfolded]
    exact hbarring
  | ok n =>
    rw [hfolded] at hbarring
    obtain ⟨-, h0, t, hn⟩ := hbarring
    rw [dot_of_folded hfolded hn]
    exact h0

include hn hnf

/-- A harmonic combination fails only where the geometric inverses overflow or fail to combine. -/
theorem barring_lens {op : Value → Value → Except Fault Value} {P : Value → Prop}
    (h : ∀ es fs x y, Inverted s m es x → Inverted s n fs y →
      Barring wide P (op (.exact x) (.exact y) >>= Value.geometricInverse s)) :
    Barring wide P (Value.lens s op (.exact m) (.exact n)) := by
  refine ((hm.barring_dot_self hmf).weaken False.elim).bind fun p hp => ?_
  rw [if_neg hp]
  refine ((hn.barring_dot_self hnf).weaken False.elim).bind fun q hq => ?_
  rw [if_neg hq]
  have hx : Barring wide (fun v => ∃ es x, v = Value.exact x ∧ Inverted s m es x)
      (Value.geometricInverse s (.exact m)) :=
    ((hm.barring_inverted hmf).weaken False.elim).map fun x ⟨es, hx⟩ => ⟨es, x, rfl, hx⟩
  have hy : Barring wide (fun w => ∃ fs y, w = Value.exact y ∧ Inverted s n fs y)
      (Value.geometricInverse s (.exact n)) :=
    ((hn.barring_inverted hnf).weaken False.elim).map fun y ⟨fs, hy⟩ => ⟨fs, y, rfl, hy⟩
  refine hx.bind ?_
  rintro _ ⟨es, x, rfl, hx⟩
  refine hy.bind ?_
  rintro _ ⟨fs, y, rfl, hy⟩
  exact h es fs x y hx hy

/-- The harmonic sum is the dual of the sum of the dual vectors, unless these cancel. -/
theorem barring_lens_mul (hcancel : ∀ x y p, m.geometricInverse s = .ok x →
      n.geometricInverse s = .ok y → x.mul s y = .ok p → p.isUnity = false) :
    Barring (tableSize < max m.components n.components)
      (fun v => ∃ es fs x y l, Inverted s m es x ∧ Inverted s n fs y ∧
        IsVector.Compatible False es fs ∧ v = .exact l ∧
        pairing (dualSum es fs) (dualSum es fs) ≠ 0 ∧ IsVector s l (dual (dualSum es fs)))
      (Value.lens s (Value.mul s) (.exact m) (.exact n)) := by
  refine hm.barring_lens hmf hn hnf fun es fs x y hx hy => ?_
  have hcompatible : IsVector.Compatible (tableSize < max m.components n.components)
      (dual es) (dual fs) := by
    have hreachm := hx.unfolds.reaches
    have hreachn := hy.unfolds.reaches
    unfold Reaches at hreachm hreachn
    unfold IsVector.Compatible
    rw [length_dual, length_dual]
    omega
  have hproduct := (hx.vector.barring_mul hy.vector hcompatible).and_of_ok fun p hp =>
    And.intro (hx.vector.compatible_of_mul hy.vector hp) (hcancel x y p hx.inverse hy.inverse hp)
  refine (hproduct.map (f := Value.exact) (Q := fun v => ∃ p, v = .exact p ∧
    IsVector s p (dualSum es fs) ∧ IsVector.Compatible False (dual es) (dual fs) ∧
      p.isUnity = false) fun p hp => ⟨p, rfl, hp⟩).bind ?_
  rintro _ ⟨p, rfl, hp, hshort, hunity⟩
  have h0 : pairing (dualSum es fs) (dualSum es fs) ≠ 0 := fun h0 => by
    rw [hp.isUnity_iff.mpr (pairing_self_eq_zero_iff.mp h0)] at hunity
    cases hunity
  unfold IsVector.Compatible at hshort
  rw [length_dual, length_dual] at hshort
  exact ((hp.barring_geometricInverse h0).weaken False.elim).map fun l hl =>
    ⟨es, fs, x, y, l, hx, hy, hshort, rfl, h0, hl⟩

end Directed

section
variable {l : Monzo} (hx : Inverted s m es x) (hy : Inverted s n fs y)
include hx hy

/-- The harmonic difference takes the dual of the second vector away again. -/
theorem barring_lens_div (hm : m.Directed) (hn : n.Directed) (hnf : n.Foldable)
    (hshort : IsVector.Compatible False es fs)
    (h0 : pairing (dualSum es fs) (dualSum es fs) ≠ 0) (hl : IsVector s l (dual (dualSum es fs))) :
    Barring False (fun v => v.strictEquals s (.exact m) = .ok true)
      (Value.lens s (Value.div s) (.exact l) (.exact n)) := by
  refine (hl.directed (pairing_dual_ne_zero h0)).barring_lens (.inl hl.residual) hn hnf
    fun es' fs' x' y' hx' hy' => ?_
  obtain rfl : y' = y := Except.ok.inj (hy'.inverse.symm.trans hy.inverse)
  have htotal : IsVector s x' (dualSum es fs) := by
    rw [← dual_dual h0]
    exact hl.geometricInverse hx'.inverse
  have hlength : IsVector.Compatible False (dualSum es fs) (dual fs) := by
    simp only [IsVector.Compatible, or_false] at hshort ⊢
    rw [dualSum, Literal.length_zipEntries, length_dual, length_dual]
    omega
  refine (htotal.barring_div hy.vector hlength).bind ?_
  rintro _ ⟨d, rfl, hd⟩
  rw [dualSum, Literal.zipEntries_sub_add, length_dual] at hd
  have hback := hd.barring_geometricInverse (s := s) <| by
    rw [pairing_padded]
    exact pairing_dual_ne_zero hx.ne_zero
  refine hback.map fun w hw => ?_
  rw [dual_padded, dual_dual hx.ne_zero, ← padded_max] at hw
  refine (hx.unfolds.extended (le_max_left _ fs.length) ?_).strictEquals hm.scalar
    hm.uncorrected hw
  simp only [IsVector.Compatible, or_false] at hshort
  omega

end

/-! ## Undoing harmonic sums -/

/-- Ratios in the same units, neither of them zero nor the opposite of the other one. -/
structure SummableRatios (m n : Monzo) : Prop where
  bounded_left : m.IsBounded
  bounded_right : n.IsBounded
  time_eq : m.time = n.time
  fractional_left : m.isFractional
  fractional_right : n.isFractional
  left_ne : m.ratio ≠ 0
  right_ne : n.ratio ≠ 0
  sum_ne : m.ratio + n.ratio ≠ 0

/-- Two directions, of values that can be folded, whose geometric inverses do not cancel. -/
structure SummableVectors (s : Settings) (m n : Monzo) : Prop where
  directed_left : m.Directed
  directed_right : n.Directed
  foldable_left : m.Foldable
  foldable_right : n.Foldable
  notUnity : ∀ x y p, m.geometricInverse s = .ok x → n.geometricInverse s = .ok y →
    x.mul s y = .ok p → p.isUnity = false

/-- A harmonic difference of ratios undoes a harmonic sum. -/
theorem SummableRatios.barring_undone (hs : s.Valid) (h : SummableRatios m n) :
    Barring (tableSize < max m.components n.components)
      (fun v => Barring (tableSize < max m.components n.components)
        (fun w => w.equals (.exact m) = true) (v.lensSub s (.exact n)))
      ((Value.exact m).lensAdd s (.exact n)) := by
  obtain ⟨t, ht⟩ := h.bounded_left
  obtain ⟨u, hu⟩ := h.bounded_right
  have hm : m.IsRatio (tableSize < max m.components n.components) m.time m.ratio :=
    .of_toRatio (if_pos h.fractional_left) (vanish_of_bounded ht) (by omega)
  have hn : n.IsRatio (tableSize < max m.components n.components) m.time n.ratio := by
    rw [h.time_eq]
    exact .of_toRatio (if_pos h.fractional_right) (vanish_of_bounded hu) (by omega)
  have hp := h.left_ne
  have hq := h.right_ne
  have hsum := h.sum_ne
  refine (RationalOp.lensAdd.apply_exactly hs hm hn ⟨rfl, hp, hq, hsum⟩).mono ?_
  rintro _ ⟨c, rfl, hc⟩
  replace hc : c.IsRatio _ m.time (m.ratio * n.ratio / (m.ratio + n.ratio)) := hc
  -- the sum differs from the second ratio by a multiple of the square of that
  have hdifference : n.ratio - m.ratio * n.ratio / (m.ratio + n.ratio) =
      n.ratio * n.ratio / (m.ratio + n.ratio) := by
    field_simp
    ring
  have hne : m.ratio * n.ratio / (m.ratio + n.ratio) ≠ n.ratio := fun heq => by
    rw [heq, sub_self] at hdifference
    exact div_ne_zero (mul_ne_zero hq hq) hsum hdifference.symm
  refine (RationalOp.lensSub.apply_exactly hs hc hn
    ⟨rfl, div_ne_zero (mul_ne_zero hp hq) hsum, hq, hne⟩).mono ?_
  rintro _ ⟨d, rfl, hd⟩
  have hratio : d.ratio = m.ratio := by
    rw [hd.ratio_eq, RationalOp.onRatios, hdifference]
    field_simp
  have htime : d.time = m.time := hd.time
  simp only [Value.equals, Value.time, htime, hd.isFractional, h.fractional_left, hratio,
    decide_true, Bool.and_self, if_true]

/-- A harmonic difference of vectors undoes a harmonic sum. -/
theorem SummableVectors.barring_undone (h : SummableVectors s m n) :
    Barring (tableSize < max m.components n.components)
      (fun v => Barring (tableSize < max m.components n.components)
        (fun w => w.strictEquals s (.exact m) = .ok true)
        (Value.lens s (Value.div s) v (.exact n)))
      (Value.lens s (Value.mul s) (.exact m) (.exact n)) := by
  refine (h.directed_left.barring_lens_mul h.foldable_left h.directed_right h.foldable_right
    h.notUnity).mono ?_
  rintro _ ⟨es, fs, x, y, l, hx, hy, hshort, rfl, h0, hl⟩
  exact (barring_lens_div hx hy h.directed_left h.directed_right h.foldable_right hshort h0
    hl).weaken False.elim

end Monzo

end Intonation
