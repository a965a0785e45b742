import Intonation.Proofs.Monzo.Magnitude
import Intonation.Proofs.Monzo.Measuring

/-!
# Exact arithmetic is rational arithmetic

A value built over one basis meets values built over another. Before two of them are combined,
the narrower one is widened: primes move from its residual into its exponents. Neither this nor
how far a value is factored shows in the ratio that it denotes. Every exact operation on ratios
gives the ratio that arithmetic on the ratios gives, or a bound is exceeded on the way.

The table of primes ends. A value may have more components than the table has primes, all of
them zero beyond the table, but no ratio is factored over that many primes: a sum of such values
fails.

## Main definitions

* `Barring`: what an outcome is unless a bound is exceeded or the table exhausted
* `Monzo.IsRatio`: a value that denotes a ratio
* `RationalOp`: the operations that keep to ratios

## Main statements

* `IsRatio.align`: widening keeps the ratios
* `IsRatio.mul`, `IsRatio.div`, `IsRatio.add`, `IsRatio.roundTo`: one lemma for each operation
* `RationalOp.apply_toRatio`: every operation gives the ratio that it should
-/

namespace Intonation

/-! ## Outcomes up to overflow -/

/-- What an outcome is unless a bound is exceeded, or the range of doubles, or the table is
exhausted while some value is too wide for it. -/
def Barring {α : Type} (wide : Prop) (P : α → Prop) : Except Fault α → Prop
  | .ok a => P a
  | .error f => f.family = .overflow ∨ f = .tooLarge ∨ f = .tableExhausted ∧ wide

namespace Barring

variable {α β : Type} {wide : Prop} {P R : α → Prop} {Q : β → Prop} {x : Except Fault α}

theorem bind {f : α → Except Fault β} (h : Barring wide P x)
    (hf : ∀ a, P a → Barring wide Q (f a)) : Barring wide Q (x >>= f) := by
  cases x with
  | error e => exact h
  | ok a => exact hf a h

theorem map {f : α → β} (h : Barring wide P x) (hf : ∀ a, P a → Q (f a)) :
    Barring wide Q (x.map f) := by
  cases x with
  | error e => exact h
  | ok a => exact hf a h

theorem mono (h : Barring wide P x) (hR : ∀ a, P a → R a) : Barring wide R x := by
  cases x with
  | error e => exact h
  | ok a => exact hR a h

theorem weaken {wide' : Prop} (h : Barring wide P x) (hwide : wide → wide') :
    Barring wide' P x := by
  cases x with
  | error e => exact h.imp_right (Or.imp_right (And.imp_right hwide))
  | ok a => exact h

theorem and_of_ok (h : Barring wide P x) (hR : ∀ a, x = .ok a → R a) :
    Barring wide (fun a => P a ∧ R a) x := by
  cases x with
  | error e => exact h
  | ok a => exact ⟨h, hR a rfl⟩

end Barring

/-- A ratio that is too large for a double has none, and all others have a finite one. -/
theorem Number.barring_toDouble (wide : Prop) (q : ℚ) :
    Barring wide (fun x => x.isFinite) (Number.ratio q).toDouble := by
  cases hx : (Number.ratio q).toDouble with
  | error f =>
    rw [Number.toDouble, Number.toDouble.ofRat] at hx
    split at hx <;> cases hx
    exact .inr (.inl rfl)
  | ok x => exact Number.isFinite_of_toDouble hx

namespace Monzo
open Double Intonation.Prime

variable {s : Settings} {a b m n : Monzo} {t u p q : ℚ} {count : Nat} {f : Fault}

theorem vanish_of_exponentFault? {bound : ℚ} {primes : List (Nat × Float)} {es : List ℚ}
    (h : exponentFault? bound primes es = none) : ∀ e ∈ es.drop primes.length, e = 0 := by
  induction es generalizing primes with
  | nil => simp
  | cons e es ih =>
    cases primes with
    | nil =>
      rw [exponentFault?] at h
      split at h
      · next he =>
        show ∀ x ∈ e :: es, x = 0
        exact List.forall_mem_cons.mpr ⟨he, ih h⟩
      · cases h
    | cons pm primes => exact ih (exponentFault?_cons.mp h).2

/-- A value within bounds vanishes beyond the table. -/
theorem vanish_of_bounded (h : boundsFault? s m = none) :
    ∀ e ∈ m.exps.drop tableSize, e = 0 := by
  have hvanish := vanish_of_exponentFault? (boundsFault?_eq_none_iff.mp h).1
  rwa [length_measures] at hvanish

/-- A value whose correction is a number exceeds its bounds by overflow when it vanishes beyond the
table. -/
theorem barring_checked_of_not_isNaN (wide : Prop) (hzero : ∀ e ∈ m.exps.drop tableSize, e = 0)
    (hnan : m.cents.isNaN = false) : Barring wide (· = m) (checked s m) := by
  cases h : checked s m with
  | ok n => exact (checked_eq_ok_iff.mp h).2
  | error f =>
    rcases checked_error_cases h with hover | ⟨-, hnan'⟩ | ⟨hlarge, -⟩ | ⟨-, e, he, hne⟩
    · exact .inl hover
    · rw [hnan] at hnan'
      cases hnan'
    · exact .inr (.inl hlarge)
    · exact absurd (hzero e he) hne

theorem barring_checked (wide : Prop) (hzero : ∀ e ∈ m.exps.drop tableSize, e = 0)
    (hcents : m.cents == 0) : Barring wide (· = m) (checked s m) :=
  barring_checked_of_not_isNaN wide hzero (not_isNaN_of_beq_zero hcents)

/-- Factoring fails when the table is exhausted, and then some value is wide. -/
theorem barring_factor {wide : Prop} (hcount : count ≤ tableSize ∨ wide) (q : ℚ) :
    Barring wide (fun parts => count ≤ tableSize ∧ parts = split (table.take count) q)
      (factor count q) := by
  by_cases hle : count ≤ tableSize
  · rw [factor_eq_ok_iff.mpr ⟨hle, rfl⟩]
    exact ⟨hle, rfl⟩
  · rw [factor_of_lt (not_le.mp hle)]
    exact .inr (.inr ⟨rfl, hcount.resolve_left hle⟩)

/-! ## Values that denote ratios -/

/-- A value that denotes a ratio with time units, and that has no more components than the table
has primes unless values may be `wide`. -/
structure IsRatio (wide : Prop) (m : Monzo) (t q : ℚ) : Prop where
  time : m.time = t
  uncorrected : m.cents == 0
  narrow : m.components ≤ tableSize ∨ wide
  whole : ∃ ns : List Int, (∀ k ∈ ns.drop tableSize, k = 0) ∧ m.exps = wholes ns ∧
    m.residual * powerProduct table ns = q

/-- Exponents without denominators are whole. -/
theorem exists_wholes {es : List ℚ} (h : ∀ e ∈ es, e.den = 1) : ∃ ns, es = wholes ns := by
  refine ⟨es.map Rat.num, ?_⟩
  rw [wholes, List.map_map]
  conv_lhs => rw [← List.map_id es]
  refine List.map_congr_left fun e he => ?_
  exact (Rat.coe_int_num_of_den_eq_one (h e he)).symm

theorem isFractional_iff : m.isFractional ↔ m.cents == 0 ∧ ∃ ns, m.exps = wholes ns := by
  rw [isFractional, isUncorrected, Bool.and_eq_true, List.all_eq_true]
  refine and_congr_right fun _ => ⟨fun h => exists_wholes fun e he => by simpa using h e he, ?_⟩
  rintro ⟨ns, hns⟩ e he
  rw [hns, wholes] at he
  obtain ⟨n, -, rfl⟩ := List.mem_map.mp he
  exact decide_eq_true (Rat.den_intCast n)

theorem ratio_eq_of_exps {ns : List Int} (h : m.exps = wholes ns) :
    m.ratio = m.residual * powerProduct table ns := by
  rw [ratio, h, primeProduct_eq_powerProduct, map_num_wholes]

/-- Adding whole exponents multiplies products of powers and leaves what lies beyond. -/
theorem addExponents_wholes (ns ks : List Int) : ∃ total, addExponents (wholes ns) ks = wholes total ∧
    (∀ count, ks.length ≤ count → total.drop count = ns.drop count) ∧
    ∀ primes, Distinct primes →
      powerProduct primes total = powerProduct primes ns * powerProduct primes ks := by
  induction ns generalizing ks with
  | nil =>
    refine ⟨ks, addExponents_nil_left ks, fun count hcount => ?_, fun primes _ => by simp⟩
    rw [List.drop_of_length_le hcount, List.drop_nil]
  | cons n ns ih =>
    cases ks with
    | nil => exact ⟨n :: ns, addExponents_nil _, fun _ _ => rfl, fun primes _ => by simp⟩
    | cons k ks =>
      obtain ⟨total, htotal, hdrop, hproduct⟩ := ih ks
      refine ⟨(n + k) :: total, ?_, fun count hcount => ?_, fun primes hprimes => ?_⟩
      · show ((n : ℚ) + k) :: addExponents (wholes ns) ks = ((n + k : Int) : ℚ) :: wholes total
        rw [htotal, Int.cast_add]
      · cases count with
        | zero => simp at hcount
        | succ count => exact hdrop count (Nat.le_of_succ_le_succ hcount)
      · cases primes with
        | nil => simp [powerProduct]
        | cons p primes =>
          rw [powerProduct_cons, powerProduct_cons, powerProduct_cons, hproduct _ hprimes.tail,
            zpow_add₀ hprimes.head_pos.ne']
          ring

theorem wholes_vanish_iff {ns : List Int} :
    (∀ e ∈ (wholes ns).drop count, e = 0) ↔ ∀ k ∈ ns.drop count, k = 0 := by
  rw [wholes, ← List.map_drop, List.forall_mem_map]
  simp only [Int.cast_eq_zero]

namespace IsRatio

variable {wide : Prop}

theorem of_toRatio (h : m.toRatio = .ok q) (hzero : ∀ e ∈ m.exps.drop tableSize, e = 0)
    (hnarrow : m.components ≤ tableSize ∨ wide) : m.IsRatio wide m.time q := by
  rw [Monzo.toRatio] at h
  split at h
  · next hfrac =>
    obtain ⟨hcents, ns, hns⟩ := isFractional_iff.mp hfrac
    cases h
    rw [hns, wholes_vanish_iff] at hzero
    exact ⟨rfl, hcents, hnarrow, ns, hzero, hns, (ratio_eq_of_exps hns).symm⟩
  · cases h

theorem isFractional (h : m.IsRatio wide t q) : m.isFractional := by
  obtain ⟨ns, -, hns, -⟩ := h.whole
  exact isFractional_iff.mpr ⟨h.uncorrected, ns, hns⟩

theorem ratio_eq (h : m.IsRatio wide t q) : m.ratio = q := by
  obtain ⟨ns, -, hns, hratio⟩ := h.whole
  rw [ratio_eq_of_exps hns, hratio]

theorem toRatio (h : m.IsRatio wide t q) : m.toRatio = .ok q := by
  rw [Monzo.toRatio, if_pos h.isFractional, h.ratio_eq]

theorem residual_eq_zero_iff (h : m.IsRatio wide t q) : m.residual = 0 ↔ q = 0 := by
  obtain ⟨ns, -, -, rfl⟩ := h.whole
  rw [mul_eq_zero, or_iff_left (powerProduct_pos distinct_table ns).ne']

protected theorem checked (h : m.IsRatio wide t q) :
    Barring wide (·.IsRatio wide t q) (checked s m) := by
  obtain ⟨ns, hzero, hns, -⟩ := h.whole
  refine (barring_checked wide ?_ h.uncorrected).mono fun n hn => hn ▸ h
  rw [hns]
  exact wholes_vanish_iff.mpr hzero

/-! ### One operand -/

protected theorem neg (h : m.IsRatio wide t q) :
    Barring wide (·.IsRatio wide t (-q)) (m.neg s) := by
  obtain ⟨ns, hzero, hns, hratio⟩ := h.whole
  refine IsRatio.checked ⟨h.time, h.uncorrected, h.narrow, ns, hzero, hns, ?_⟩
  rw [← hratio, neg_mul]

/-- Operations on whole exponents that keep zeros. -/
theorem vanish_map {op : Int → Int} (hop : op 0 = 0) {ns : List Int}
    (h : ∀ k ∈ ns.drop count, k = 0) : ∀ k ∈ (ns.map op).drop count, k = 0 := by
  rw [← List.map_drop, List.forall_mem_map]
  intro k hk
  rw [h k hk, hop]

/-- Beyond the table nothing is combined but zeros. -/
theorem vanish_zipWith {α : Type} [Zero α] {op : α → α → α} (hop : op 0 0 = 0) {xs ys : List α}
    (hx : ∀ x ∈ xs.drop count, x = 0) (hy : ∀ y ∈ ys.drop count, y = 0) :
    ∀ z ∈ (xs.zipWith op ys).drop count, z = 0 := by
  rw [List.drop_zipWith]
  intro z hz
  obtain ⟨i, hi, rfl⟩ := List.mem_iff_getElem.mp hz
  rw [List.getElem_zipWith, hx _ (List.getElem_mem _), hy _ (List.getElem_mem _), hop]

theorem reciprocal (h : m.IsRatio wide t q) : m.reciprocal.IsRatio wide (-t) q⁻¹ := by
  obtain ⟨ns, hzero, hns, hratio⟩ := h.whole
  refine ⟨congrArg Neg.neg h.time, neg_beq_zero h.uncorrected, ?_, ns.map fun n => -n,
    vanish_map rfl hzero, ?_, ?_⟩
  · rw [components, Monzo.reciprocal, List.length_map]
    exact h.narrow
  · rw [Monzo.reciprocal, hns]
    exact wholes_map _ _ (fun n => Int.cast_neg n) ns
  · rw [powerProduct_map_neg, ← hratio, mul_inv]
    rfl

/-- An exact value that denotes a ratio with time units. -/
def Exactly (wide : Prop) (t q : ℚ) (v : Value) : Prop := ∃ m, v = .exact m ∧ m.IsRatio wide t q

theorem map_exact {x : Except Fault Monzo} (h : Barring wide (·.IsRatio wide t q) x) :
    Barring wide (Exactly wide t q) (x.map .exact) := h.map fun m hm => ⟨m, rfl, hm⟩

protected theorem inverse (h : m.IsRatio wide t q) (h0 : q ≠ 0) :
    Barring wide (Exactly wide (-t) q⁻¹) (m.inverse s) := by
  rw [Monzo.inverse, if_neg (mt h.residual_eq_zero_iff.mp h0)]
  exact map_exact h.reciprocal.checked

/-- The power with a whole exponent. -/
protected theorem powRatio (hs : s.Valid) (h : m.IsRatio wide t q) (k : Int)
    (h0 : q = 0 → 0 ≤ k) : Barring wide (Exactly wide (t * k) (q ^ k)) (m.powRatio s k) := by
  have hden : ¬ s.maxPowDenominator ≤ ((k : ℚ)).den := by
    rw [Rat.den_intCast]
    exact not_le.mpr hs.pow_gt_one
  have hpow : Ratio.pow? m.residual k = some (m.residual ^ k) := by
    rw [Ratio.pow?_intCast, if_neg]
    rintro ⟨hres, hk⟩
    exact absurd (h0 (h.residual_eq_zero_iff.mp hres)) (not_le.mpr hk)
  rw [Monzo.powRatio, if_neg hden]
  split
  · exact .inl rfl
  · rw [hpow]
    refine (Number.barring_toDouble wide k).bind fun x hx => ?_
    obtain ⟨ns, hzero, hns, hratio⟩ := h.whole
    have hpower : Monzo.IsRatio wide {
        time := m.time * k
        exps := m.exps.map (· * (k : ℚ))
        residual := m.residual ^ k
        cents := m.cents * x } (t * k) (q ^ k) := by
      refine ⟨congrArg (· * (k : ℚ)) h.time, beq_zero_mul h.uncorrected hx, ?_, ns.map (· * k),
        vanish_map (zero_mul k) hzero, ?_, ?_⟩
      · rw [components, List.length_map]
        exact h.narrow
      · rw [hns]
        exact wholes_map _ _ (fun n => Int.cast_mul n k) ns
      · rw [powerProduct_map_mul, ← hratio, mul_zpow]
    exact hpower.checked.bind fun power hm => ⟨power, rfl, hm⟩

/-! ### Two operands -/

/-- Widening keeps the ratio: what leaves the residual arrives in the exponents. -/
protected theorem widen (h : m.IsRatio wide t q) (hcount : count ≤ tableSize ∨ wide) :
    Barring wide (fun n => n.IsRatio wide t q ∧ n.components = max m.components count)
      (m.widen s count) := by
  refine Barring.and_of_ok ?_ fun n hn => components_of_widen hn
  by_cases hlt : m.components < count
  · rw [Monzo.widen, if_pos hlt]
    refine (barring_factor hcount m.residual).bind fun parts hparts => ?_
    obtain ⟨hle, rfl⟩ := hparts
    obtain ⟨ns, hzero, hns, hratio⟩ := h.whole
    obtain ⟨hsplit, -, hproduct⟩ := split_spec (distinct_table.take count) m.residual
    rw [length_take_table hle] at hsplit
    obtain ⟨total, htotal, hdrop, hpowers⟩ :=
      addExponents_wholes ns (split (table.take count) m.residual).1
    refine IsRatio.checked ⟨h.time, h.uncorrected, ?_, total, ?_, ?_, ?_⟩
    · rw [components, length_addExponents, hsplit]
      exact .inl (max_le (hlt.le.trans hle) hle)
    · rwa [hdrop _ (hsplit.trans_le hle)]
    · rw [← htotal, ← hns]
    · rw [hpowers table distinct_table, ← powerProduct_take table _ hsplit.le, ← hratio]
      conv_rhs => rw [← hproduct]
      ring
  · rw [Monzo.widen, if_neg hlt]
    exact h

/-- Two ratios over a common number of primes. -/
protected theorem align (ha : a.IsRatio wide t p) (hb : b.IsRatio wide u q) :
    Barring wide (fun c : Monzo × Monzo => c.1.IsRatio wide t p ∧ c.2.IsRatio wide u q ∧
      c.1.components = c.2.components) (align s a b) := by
  refine (ha.widen hb.narrow).bind fun c hc => (hb.widen ha.narrow).bind fun d hd => ?_
  exact ⟨hc.1, hd.1, hc.2.trans ((max_comm _ _).trans hd.2.symm)⟩

/-- Two ratios over one number of primes combine when the operation on their exponents matches
the one on ratios. -/
theorem zipWith_checked {op : Int → Int → Int} {op' opq : ℚ → ℚ → ℚ} {cents : Float}
    (ha : a.IsRatio wide t p) (hb : b.IsRatio wide u q) (hlen : a.components = b.components)
    (hop : ∀ x y : Int, ((op x y : Int) : ℚ) = op' x y) (hop0 : op 0 0 = 0) (hcents : cents == 0)
    (hpowers : ∀ ns ks : List Int, ns.length = ks.length →
      opq a.residual b.residual * powerProduct table (ns.zipWith op ks) =
        opq (a.residual * powerProduct table ns) (b.residual * powerProduct table ks)) :
    Barring wide (·.IsRatio wide (op' t u) (opq p q)) (Monzo.checked s {
      time := op' a.time b.time
      exps := a.exps.zipWith op' b.exps
      residual := opq a.residual b.residual
      cents }) := by
  obtain ⟨ns, hzeron, hns, hp⟩ := ha.whole
  obtain ⟨ks, hzerok, hks, hq⟩ := hb.whole
  have hlengths : ns.length = ks.length := by
    rwa [components, components, hns, hks, length_wholes, length_wholes] at hlen
  refine IsRatio.checked ⟨by rw [ha.time, hb.time], hcents, ?_, ns.zipWith op ks, ?_, ?_, ?_⟩
  · have hmin : (a.exps.zipWith op' b.exps).length = a.components := by
      rw [List.length_zipWith]
      exact min_eq_left hlen.le
    rw [components, hmin]
    exact ha.narrow
  · exact vanish_zipWith hop0 hzeron hzerok
  · rw [hns, hks]
    exact wholes_zipWith op op' hop ns ks
  · rw [hpowers ns ks hlengths, hp, hq]

protected theorem mul (ha : a.IsRatio wide t p) (hb : b.IsRatio wide u q) :
    Barring wide (·.IsRatio wide (t + u) (p * q)) (a.mul s b) := by
  refine (ha.align hb).bind fun c hc => ?_
  obtain ⟨hp, hq, hlen⟩ := hc
  refine hp.zipWith_checked hq hlen (fun x y => Int.cast_add x y) rfl
    (add_beq_zero hp.uncorrected hq.uncorrected) fun ns ks hlengths => ?_
  rw [powerProduct_zipWith_add distinct_table ns ks hlengths]
  ring

protected theorem divNonzero (ha : a.IsRatio wide t p) (hb : b.IsRatio wide u q) :
    Barring wide (·.IsRatio wide (t - u) (p / q)) (a.divNonzero s b) := by
  refine (ha.align hb).bind fun c hc => ?_
  obtain ⟨hp, hq, hlen⟩ := hc
  refine hp.zipWith_checked hq hlen (fun x y => Int.cast_sub x y) rfl
    (sub_beq_zero hp.uncorrected hq.uncorrected) fun ns ks hlengths => ?_
  have hneg : ns.zipWith (· - ·) ks = ns.zipWith (· + ·) (ks.map fun k => -k) := by
    rw [List.zipWith_map_right]
    rfl
  rw [hneg, powerProduct_zipWith_add distinct_table ns _ (by rwa [List.length_map]),
    powerProduct_map_neg, mul_div_mul_comm, div_eq_mul_inv (powerProduct table ns)]

protected theorem div (ha : a.IsRatio wide t p) (hb : b.IsRatio wide u q) (h0 : q ≠ 0) :
    Barring wide (Exactly wide (t - u) (p / q)) (a.div s b) := by
  rw [Monzo.div, if_neg (mt hb.residual_eq_zero_iff.mp h0)]
  exact map_exact (ha.divNonzero hb)

protected theorem ofRatioOver (hcount : count ≤ tableSize ∨ wide) (q : ℚ) :
    Barring wide (·.IsRatio wide 0 q) (ofRatioOver s count q) := by
  refine (barring_factor hcount q).bind fun parts hparts => ?_
  obtain ⟨hle, rfl⟩ := hparts
  obtain ⟨hsplit, -, hproduct⟩ := split_spec (distinct_table.take count) q
  rw [length_take_table hle] at hsplit
  refine IsRatio.checked ⟨rfl, zero_beq_zero, .inl ?_, _, ?_, rfl, ?_⟩
  · rw [components, List.length_map, hsplit]
    exact hle
  · rw [List.drop_of_length_le (hsplit.trans_le hle)]
    simp
  · rw [← powerProduct_take table _ hsplit.le, hproduct]

/-- A ratio over the primes of two others. -/
theorem ratioResult (ha : a.IsRatio wide t p) (hb : b.IsRatio wide u q) (r : ℚ) :
    Barring wide (Exactly wide t r) (ratioResult s a b r) := by
  have hcount : max a.components b.components ≤ tableSize ∨ wide := by
    rcases ha.narrow with hle | hwide
    · exact hb.narrow.imp (max_le hle) id
    · exact .inr hwide
  refine (IsRatio.ofRatioOver hcount r).bind fun m hm => ?_
  exact ⟨{ m with time := a.time }, rfl, ha.time, hm.uncorrected, hm.narrow, hm.whole⟩

theorem requireUnits (operation : String) (ha : a.IsRatio wide t p) (hb : b.IsRatio wide t q) :
    requireUnits operation a b = .ok () := by
  rw [Monzo.requireUnits, if_pos (ha.time.trans hb.time.symm)]

protected theorem add (ha : a.IsRatio wide t p) (hb : b.IsRatio wide t q) :
    Barring wide (Exactly wide t (p + q)) (a.add s b) := by
  rw [Monzo.add, ha.requireUnits "add" hb, ha.isFractional, hb.isFractional, ha.ratio_eq,
    hb.ratio_eq]
  exact ha.ratioResult hb (p + q)

protected theorem sub (ha : a.IsRatio wide t p) (hb : b.IsRatio wide t q) :
    Barring wide (Exactly wide t (p - q)) (a.sub s b) := by
  rw [Monzo.sub, ha.requireUnits "subtract" hb, ha.isFractional, hb.isFractional, ha.ratio_eq,
    hb.ratio_eq]
  exact ha.ratioResult hb (p - q)

protected theorem modulo (ha : a.IsRatio wide t p) (hb : b.IsRatio wide t q) (h0 : q ≠ 0)
    (ceiling : Bool) :
    Barring wide (Exactly wide t (Ratio.modulo p q ceiling)) (a.modulo s b ceiling) := by
  rw [Monzo.modulo, ha.isFractional, hb.isFractional, ha.requireUnits "reduce" hb, ha.ratio_eq,
    hb.ratio_eq]
  show Barring wide _ (if q = 0 then _ else _)
  rw [if_neg h0]
  exact ha.ratioResult hb _

protected theorem roundTo (hs : s.Valid) (ha : a.IsRatio wide t p) (hb : b.IsRatio wide t q)
    (h0 : q ≠ 0) :
    Barring wide (Exactly wide t (Ratio.nearestInteger (p / q) * q)) (a.roundTo s b) := by
  rw [Monzo.roundTo, ha.requireUnits "round" hb]
  show Barring wide _ (a.div s b >>= _)
  refine (ha.div hb h0).bind fun v hv => ?_
  obtain ⟨quotient, rfl, hquotient⟩ := hv
  have hnearest : (Value.exact quotient).nearestInteger? = some (Ratio.nearestInteger (p / q)) := by
    rw [Value.nearestInteger?, if_pos hquotient.isFractional, hquotient.ratio_eq]
  rw [hnearest]
  refine (IsRatio.ofRatioOver (.inl hs.components_le) _).bind fun factor hfactor => map_exact ?_
  have hmul := hb.mul (s := s) hfactor
  rwa [add_zero, mul_comm q] at hmul

/-- The reciprocal of what two reciprocals combine to. -/
theorem lens (op : Value → Value → Except Fault Value) (opq : ℚ → ℚ → ℚ)
    (hop : ∀ {a b : Monzo} {t p q : ℚ}, a.IsRatio wide t p → b.IsRatio wide t q →
      Barring wide (Exactly wide t (opq p q)) (op (.exact a) (.exact b)))
    (ha : a.IsRatio wide t p) (hb : b.IsRatio wide t q) (hp : p ≠ 0) (hq : q ≠ 0)
    (h0 : opq p⁻¹ q⁻¹ ≠ 0) :
    Barring wide (Exactly wide t (opq p⁻¹ q⁻¹)⁻¹) (do
      let total ← op (← a.inverse s) (← b.inverse s)
      Value.inverse s total) := by
  refine (ha.inverse hp).bind fun v hv => (hb.inverse hq).bind fun w hw => ?_
  obtain ⟨c, rfl, hc⟩ := hv
  obtain ⟨d, rfl, hd⟩ := hw
  refine (hop hc hd).bind fun v hv => ?_
  obtain ⟨total, rfl, htotal⟩ := hv
  have hinverse := htotal.inverse (s := s) h0
  rwa [neg_neg] at hinverse

end IsRatio

end Monzo

/-! ## All operations -/

/-- The operations on exact values that keep to ratios. -/
inductive RationalOp
  | add
  | sub
  | mul
  | div
  | neg
  | inverse
  | pow (exponent : Int)
  | modulo (ceiling : Bool)
  | roundTo
  | lensAdd
  | lensSub

namespace RationalOp

/-- An operation on values; the operations of one operand ignore the second one. -/
def apply (s : Settings) (op : RationalOp) (v w : Value) : Except Fault Value :=
  match op with
  | add => v.add s w
  | sub => v.sub s w
  | mul => v.mul s w
  | div => v.div s w
  | neg => v.neg s
  | inverse => v.inverse s
  | pow exponent => v.powNumber s (.integer exponent)
  | modulo ceiling => v.modulo s w ceiling
  | roundTo => v.roundTo s w
  | lensAdd => v.lensAdd s w
  | lensSub => v.lensSub s w

/-- An operation on ratios. -/
def onRatios (op : RationalOp) (p q : ℚ) : ℚ :=
  match op with
  | add => p + q
  | sub => p - q
  | mul => p * q
  | div => p / q
  | neg => -p
  | inverse => 1 / p
  | pow exponent => p ^ exponent
  | modulo ceiling =>
    let rest := p - q * ⌊p / q⌋
    if ceiling ∧ rest = 0 then q else rest
  | roundTo => ⌊p / q + 1 / 2⌋ * q
  | lensAdd => p * q / (p + q)
  | lensSub => p * q / (q - p)

/-- What an operation does to the powers of the time unit. -/
def onTimes (op : RationalOp) (t u : ℚ) : ℚ :=
  match op with
  | add | sub | modulo _ | roundTo | lensAdd | lensSub | neg => t
  | mul => t + u
  | div => t - u
  | inverse => -t
  | pow exponent => t * exponent

/-- The operands of which an operation is defined: the same time units for everything but
products, and no division by zero. -/
def Defined (op : RationalOp) (t u p q : ℚ) : Prop :=
  match op with
  | add | sub => t = u
  | mul | neg => True
  | div => q ≠ 0
  | inverse => p ≠ 0
  | pow exponent => exponent < 0 → p ≠ 0
  | modulo _ | roundTo => t = u ∧ q ≠ 0
  | lensAdd => t = u ∧ p ≠ 0 ∧ q ≠ 0 ∧ p + q ≠ 0
  | lensSub => t = u ∧ p ≠ 0 ∧ q ≠ 0 ∧ p ≠ q

/-- Where the result of an operation lies: remainders lie between zero and the divisor. -/
def InRange (op : RationalOp) (q r : ℚ) : Prop :=
  match op with
  | modulo false => if 0 < q then r ∈ Set.Ico 0 q else r ∈ Set.Ioc q 0
  | modulo true => if 0 < q then r ∈ Set.Ioc 0 q else r ∈ Set.Ico q 0
  | _ => True

/-- Every operation gives the ratio that arithmetic on the ratios gives, whatever the bases. -/
theorem apply_exactly (op : RationalOp) {s : Settings} (hs : s.Valid) {wide : Prop} {a b : Monzo}
    {t u p q : ℚ} (hp : a.IsRatio wide t p) (hq : b.IsRatio wide u q) (h : op.Defined t u p q) :
    Barring wide (Monzo.IsRatio.Exactly wide (op.onTimes t u) (op.onRatios p q))
      (op.apply s (.exact a) (.exact b)) := by
  cases op with
  | add =>
    obtain rfl : t = u := h
    exact hp.add hq
  | sub =>
    obtain rfl : t = u := h
    exact hp.sub hq
  | mul => exact Monzo.IsRatio.map_exact (hp.mul hq)
  | div => exact hp.div hq h
  | neg => exact Monzo.IsRatio.map_exact hp.neg
  | inverse =>
    have hinverse := hp.inverse (s := s) h
    rwa [← one_div] at hinverse
  | pow exponent => exact hp.powRatio hs exponent fun h0 => not_lt.mp fun hlt => h hlt h0
  | modulo ceiling =>
    obtain ⟨rfl, h0⟩ := h
    exact hp.modulo hq h0 ceiling
  | roundTo =>
    obtain ⟨rfl, h0⟩ := h
    exact hp.roundTo hs hq h0
  | lensAdd =>
    obtain ⟨rfl, hp0, hq0, hsum⟩ := h
    have hharmonic : p⁻¹ + q⁻¹ = (p + q) / (p * q) := inv_add_inv hp0 hq0
    have hne : p⁻¹ + q⁻¹ ≠ 0 := by
      rw [hharmonic]
      exact div_ne_zero hsum (mul_ne_zero hp0 hq0)
    have hlens := Monzo.IsRatio.lens (s := s) (Value.add s) (· + ·)
      (fun hc hd => hc.add hd) hp hq hp0 hq0 hne
    rwa [hharmonic, inv_div] at hlens
  | lensSub =>
    obtain ⟨rfl, hp0, hq0, hdiff⟩ := h
    have hharmonic : p⁻¹ - q⁻¹ = (q - p) / (p * q) := inv_sub_inv hp0 hq0
    have hne : p⁻¹ - q⁻¹ ≠ 0 := by
      rw [hharmonic]
      exact div_ne_zero (sub_ne_zero.mpr hdiff.symm) (mul_ne_zero hp0 hq0)
    have hlens := Monzo.IsRatio.lens (s := s) (Value.sub s) (· - ·)
      (fun hc hd => hc.sub hd) hp hq hp0 hq0 hne
    rwa [hharmonic, inv_div] at hlens

/-- What whole divisors leave lies between zero and the divisor. -/
theorem inRange_onRatios (op : RationalOp) {t u p q : ℚ} (h : op.Defined t u p q) :
    op.InRange q (op.onRatios p q) := by
  cases op with
  | modulo ceiling =>
    obtain ⟨-, h0⟩ := h
    -- the remainder is the divisor times the fractional part of the quotient
    have hscaled : p - q * ⌊p / q⌋ = q * Int.fract (p / q) := by
      rw [Int.fract, mul_sub, mul_div_cancel₀ p h0]
    have hnonneg := Int.fract_nonneg (p / q)
    have hlt := Int.fract_lt_one (p / q)
    generalize Int.fract (p / q) = part at hscaled hnonneg hlt
    have hzero : q * part = 0 ↔ part = 0 := by rw [mul_eq_zero, or_iff_right h0]
    unfold InRange onRatios
    simp only [hscaled, hzero]
    rcases lt_or_gt_of_ne h0 with hneg | hpos
    · have hle : q * part ≤ 0 := mul_nonpos_of_nonpos_of_nonneg hneg.le hnonneg
      have hgt : q < q * part := by nlinarith
      cases ceiling with
      | false => simp [hneg.not_gt, hle, hgt]
      | true =>
        by_cases hpart : part = 0
        · simp [hneg.not_gt, hpart, hneg]
        · simp [hneg.not_gt, hpart, hgt.le, lt_of_le_of_ne hle (mt hzero.mp hpart)]
    · have hge : 0 ≤ q * part := mul_nonneg hpos.le hnonneg
      have hless : q * part < q := by nlinarith
      cases ceiling with
      | false => simp [hpos, hge, hless]
      | true =>
        by_cases hpart : part = 0
        · simp [hpos, hpart]
        · simp [hpos, hpart, hless.le, lt_of_le_of_ne hge (Ne.symm (mt hzero.mp hpart))]
  | _ => trivial

/-- Every operation on ratios is exact and gives the ratio that arithmetic on the ratios gives,
whatever the bases of its operands, or it overflows. Only operands of more components than the
table has primes can exhaust the table. -/
theorem apply_toRatio (op : RationalOp) {s sa sb : Settings} (hs : s.Valid) {a b : Monzo} {p q : ℚ}
    (hbounda : Monzo.boundsFault? sa a = none) (hboundb : Monzo.boundsFault? sb b = none)
    (ha : a.toRatio = .ok p) (hb : b.toRatio = .ok q) (h : op.Defined a.time b.time p q) :
    Barring (Prime.tableSize < max a.components b.components)
        (fun v => v.isFractional ∧ v.toRatio = .ok (op.onRatios p q) ∧
          v.time = op.onTimes a.time b.time)
        (op.apply s (.exact a) (.exact b)) ∧
      op.InRange q (op.onRatios p q) := by
  refine ⟨?_, op.inRange_onRatios h⟩
  have hnarrow : ∀ count, count ≤ max a.components b.components →
      count ≤ Prime.tableSize ∨ Prime.tableSize < max a.components b.components :=
    fun count hle => (le_or_gt count Prime.tableSize).imp id fun hlt => hlt.trans_le hle
  have hp := Monzo.IsRatio.of_toRatio ha (Monzo.vanish_of_bounded hbounda)
    (hnarrow _ (le_max_left _ _))
  have hq := Monzo.IsRatio.of_toRatio hb (Monzo.vanish_of_bounded hboundb)
    (hnarrow _ (le_max_right _ _))
  refine (op.apply_exactly hs hp hq h).mono fun v hv => ?_
  obtain ⟨m, rfl, hm⟩ := hv
  exact ⟨hm.isFractional, hm.toRatio, hm.time⟩

/-- Fifteen fourteenths over two primes, rounded to multiples of an unfactored minus nine tenths
over one prime. -/
theorem apply_toRatio_mixed :
    let a : Monzo := { exps := [-1, 1], residual := 5 / 7 }
    let b : Monzo := { exps := [-1], residual := -9 / 5 }
    (∃ v, RationalOp.roundTo.apply {} (.exact a) (.exact b) = .ok v ∧ v.isFractional ∧
      v.toRatio = .ok (9 / 10)) := by
  intro a b
  have hbounda : Monzo.boundsFault? {} a = none := by decide +kernel
  have hboundb : Monzo.boundsFault? {} b = none := by decide +kernel
  have ha : a.toRatio = .ok (15 / 14) := by decide +kernel
  have hb : b.toRatio = .ok (-9 / 10) := by decide +kernel
  have hsound :=
    (roundTo.apply_toRatio Settings.valid_default hbounda hboundb ha hb ⟨rfl, by norm_num⟩).1
  have hok : (RationalOp.roundTo.apply {} (.exact a) (.exact b)).map (fun _ => ()) = .ok () := by
    decide +kernel
  obtain ⟨v, hv, -⟩ := map_eq_ok.mp hok
  rw [hv] at hsound
  obtain ⟨hfrac, hratio, -⟩ := hsound
  refine ⟨v, hv, hfrac, hratio.trans ?_⟩
  norm_num [onRatios]

/-- A sum of two units of a thousand and one components fails, and not by overflow. -/
theorem add_beyond_table :
    let one : Monzo := { exps := List.replicate 1001 0 }
    Monzo.checked {} one = .ok one ∧ one.toRatio = .ok 1 ∧
      RationalOp.add.apply {} (.exact one) (.exact one) = .error .tableExhausted ∧
      ¬ (Fault.tableExhausted.family = .overflow ∨ Fault.tableExhausted = .tooLarge) := by
  intro one
  have hone : Monzo.checked {} one = .ok one := Monzo.unity_eq (s := {}) (by decide) 1001
  have hexps : one.exps = Monzo.wholes (List.replicate 1001 0) := by
    rw [Monzo.wholes, List.map_replicate, Int.cast_zero]
  have hfrac : one.isFractional :=
    Monzo.isFractional_iff.mpr ⟨Double.zero_beq_zero, _, hexps⟩
  have hratio : one.ratio = 1 := by
    rw [Monzo.ratio_eq_of_exps hexps,
      Prime.powerProduct_eq_one fun e he => List.eq_of_mem_replicate he, mul_one]
  have hwide : Prime.tableSize < max one.components one.components := by
    rw [Monzo.components, List.length_replicate]
    decide
  refine ⟨hone, by rw [Monzo.toRatio, if_pos hfrac, hratio], ?_, by decide⟩
  show Monzo.add {} one one = _
  rw [Monzo.add, hfrac, Monzo.ratioResult, Monzo.ofRatioOver, Monzo.factor_of_lt hwide]
  rfl

end RationalOp

end Intonation
