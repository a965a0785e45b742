import Intonation.Proofs.Double.Finite
import Intonation.Proofs.Monzo.Rational
import Intonation.Proofs.Value.Bounded
import Intonation.Value.Arithmetic

/-!
# How exact arithmetic fails

Exact arithmetic is meant to fail by overflow alone. What else it can fail with is kept apart by a
predicate on faults: a number too large for a double, more primes than the table has, a nonzero
exponent beyond the table, and a correction that is no number each need a cause, and where there is
none the fault is not permitted. A value is tame when arithmetic on it gives no cause either.

## Main definitions

* `Monzo.Tame F`, `Value.Tame F`: values on which arithmetic fails with the permitted faults alone
* `Value.Immense`, `Value.Sprawling`: what keeps a value within bounds from being tame

## Main statements

* `Monzo.meets_checked`: the bounds, the one place where arithmetic fails
* `Monzo.meets_mul`, `Monzo.meets_divNonzero`, `Monzo.meets_powRatio`: arithmetic on tame values
* `Monzo.meets_ofTemperament`: powers of ratios
-/

namespace Intonation
open Double Intonation.Prime

/-! ## Magnitudes -/

theorem add_le_two_pow {x y : ℚ} {n : Nat} (hx : x ≤ 2 ^ n) (hy : y ≤ 2 ^ n) :
    x + y ≤ 2 ^ (n + 1) := by
  rw [pow_succ, mul_two]
  exact add_le_add hx hy

theorem two_pow_le_two_pow {m n : Nat} (h : m ≤ n) : (2 : ℚ) ^ m ≤ 2 ^ n :=
  pow_le_pow_right₀ one_le_two h

theorem abs_mul_le_two_pow {x y : ℚ} {m n : Nat} (hx : |x| ≤ 2 ^ m) (hy : |y| ≤ 2 ^ n) :
    |x * y| ≤ 2 ^ (m + n) := by
  rw [abs_mul, pow_add]
  exact mul_le_mul hx hy (abs_nonneg y) (by positivity)

theorem Ratio.cast_bits_le {q : ℚ} {n : Nat} (h : Ratio.bits q ≤ 2 ^ n) :
    (Ratio.bits q : ℚ) ≤ 2 ^ n := by
  exact_mod_cast h

theorem Ratio.bits_le_two_pow {q : ℚ} {m n : Nat} (h : Ratio.bits q ≤ 2 ^ m) (hle : m ≤ n) :
    Ratio.bits q ≤ 2 ^ n := h.trans (Nat.pow_le_pow_right two_pos hle)

theorem Number.toDouble_eq (q : ℚ) : (Number.ratio q).toDouble =
    match ofRat? q with
    | some x => .ok x
    | none => .error .tooLarge := rfl

namespace Monzo

variable {F : Fault → Prop} {s : Settings} {a b m n : Monzo} {p q : ℚ} {count : Nat} {f : Fault}
  {es : List ℚ}

/-- A value on which arithmetic fails with the permitted faults alone: its exponents and its
residual are far from the range of doubles, it has no more components than the table has primes,
and its correction is finite. -/
structure Tame (F : Fault → Prop) (m : Monzo) : Prop where
  exps_le : F .tooLarge ∨ ∀ e ∈ m.exps, |e| ≤ 2 ^ 911
  bits_le : F .tooLarge ∨ Ratio.bits m.residual ≤ 2 ^ 900
  components_le : F .tableExhausted ∨ m.components ≤ tableSize
  vanish : ∀ e ∈ m.exps.drop tableSize, e = 0
  finite : m.cents.isFinite

/-! ## The bounds -/

theorem abs_le_of_bounded' (hs : s.absurdExponent ≤ 2 ^ 900) (h : boundsFault? s m = none) :
    ∀ e ∈ m.exps, |e| ≤ 2 ^ 911 := by
  have hbound : centsBound s < 2 ^ 911 := by
    have hcast : (s.absurdExponent : ℚ) ≤ 2 ^ 900 := by exact_mod_cast hs
    calc centsBound s = s.absurdExponent * 1200 := by rw [centsBound, Nat.cast_mul]; rfl
      _ ≤ 2 ^ 900 * 1200 := mul_le_mul_of_nonneg_right hcast (by norm_num)
      _ < 2 ^ 900 * 2 ^ 11 := mul_lt_mul_of_pos_left (by norm_num) (by positivity)
      _ = 2 ^ 911 := (pow_add 2 900 11).symm
  exact abs_le_of_exponentFault? (by positivity) (by decide +kernel) hbound
    (fun _ => Prime.isFull_of_mem_measures) (boundsFault?_eq_none_iff.mp h).1

theorem Tame.of_bounded (hs : F .tooLarge ∨ s.absurdExponent ≤ 2 ^ 900)
    (hlen : F .tableExhausted ∨ m.components ≤ tableSize) (h : boundsFault? s m = none) :
    Tame F m where
  exps_le := hs.imp_right fun hs => abs_le_of_bounded' hs h
  bits_le := hs.imp_right fun hs => (boundsFault?_eq_none_iff.mp h).2.bits_le.trans hs
  components_le := hlen
  vanish := vanish_of_bounded h
  finite :=
    have hrest := (boundsFault?_eq_none_iff.mp h).2
    isFinite_of_not_exceeds hrest.not_nan hrest.cents_le

section
variable (hF : ∀ f : Fault, f.family = .overflow → F f)
include hF

/-- A value that is built is within the bounds, or exceeds them by overflow, or else there is a
cause for another fault. -/
theorem meets_checked (hsmall : F .tooLarge ∨ ∀ e ∈ m.exps, |e| ≤ 2 ^ 1023)
    (hvanish : F .componentBeyondTable ∨ ∀ e ∈ m.exps.drop tableSize, e = 0)
    (hcents : F .invalidCents ∨ m.cents.isNaN = false) :
    Meets (fun n => n = m ∧ boundsFault? s m = none) F (checked s m) := by
  cases h : checked s m with
  | ok n => exact (checked_eq_ok_iff.mp h).symm
  | error f =>
    show F f
    rcases checked_error_cases h with hover | ⟨rfl, hnan⟩ | ⟨rfl, e, he, hnone⟩ | ⟨rfl, e, he, hne⟩
    · exact hF f hover
    · refine hcents.resolve_right fun hnumber => ?_
      rw [hnumber] at hnan
      cases hnan
    · -- only an exponent beyond all doubles has no nearest one
      refine hsmall.resolve_right fun hall => ?_
      obtain ⟨x, hx⟩ := exists_ofRat?_of_abs_le (q := |e|) (by rw [abs_abs]; exact hall e he)
      rw [hx] at hnone
      cases hnone
    · exact hvanish.resolve_right fun hall => hne (hall e he)

/-- A tame value is built from exponents in the range of doubles over the primes of the table. -/
theorem meets_checked_tame (hs : F .tooLarge ∨ s.absurdExponent ≤ 2 ^ 900)
    (hsmall : F .tooLarge ∨ ∀ e ∈ m.exps, |e| ≤ 2 ^ 1023)
    (hlen : F .tableExhausted ∨ m.components ≤ tableSize)
    (hvanish : ∀ e ∈ m.exps.drop tableSize, e = 0)
    (hcents : F .invalidCents ∨ m.cents.isNaN = false) :
    Meets (fun n => n = m ∧ Tame F n) F (checked s m) :=
  (meets_checked hF hsmall (.inr hvanish) hcents).mono fun _ ⟨hn, hb⟩ =>
    ⟨hn, hn ▸ .of_bounded hs hlen hb⟩

theorem tame_checked (hs : F .tooLarge ∨ s.absurdExponent ≤ 2 ^ 900)
    (hsmall : F .tooLarge ∨ ∀ e ∈ m.exps, |e| ≤ 2 ^ 1023)
    (hlen : F .tableExhausted ∨ m.components ≤ tableSize)
    (hvanish : ∀ e ∈ m.exps.drop tableSize, e = 0)
    (hcents : F .invalidCents ∨ m.cents.isNaN = false) : Meets (Tame F) F (checked s m) :=
  (meets_checked_tame hF hs hsmall hlen hvanish hcents).mono fun _ h => h.2

/-! ## Building values -/

omit hF in
theorem meets_factor (hcount : F .tableExhausted ∨ count ≤ tableSize) :
    Meets (fun parts => count ≤ tableSize ∧ parts = split (table.take count) q) F
      (factor count q) := by
  cases h : factor count q with
  | ok parts => exact factor_eq_ok_iff.mp h
  | error f =>
    unfold factor basis at h
    split at h
    · next hlt =>
      cases h
      exact hcount.resolve_right (not_le.mpr hlt)
    · cases h

omit hF in
theorem abs_le_of_mem_wholes_split (q : ℚ) (count : Nat) :
    ∀ e ∈ wholes (split (table.take count) q).1, |e| ≤ Ratio.bits q := by
  intro e he
  obtain ⟨k, hk, rfl⟩ := List.mem_map.mp he
  exact abs_le_of_mem_split (distinct_table.take count) q k hk

omit hF in
theorem length_wholes_split (h : count ≤ tableSize) :
    (wholes (split (table.take count) q).1).length = count := by
  rw [length_wholes, (split_spec (distinct_table.take count) q).1, length_take_table h]

omit hF in
theorem vanish_of_length_le (h : es.length ≤ tableSize) : ∀ e ∈ es.drop tableSize, e = 0 := by
  rw [List.drop_eq_nil_of_le h]
  simp

/-- The value of a ratio. -/
theorem meets_ofRatioOver (hs : F .tooLarge ∨ s.absurdExponent ≤ 2 ^ 900)
    (hbits : F .tooLarge ∨ Ratio.bits q ≤ 2 ^ 900)
    (hcount : F .tableExhausted ∨ count ≤ tableSize) :
    Meets (fun m => Tame F m ∧ count ≤ tableSize ∧
      m = { exps := wholes (split (table.take count) q).1
            residual := (split (table.take count) q).2 }) F (ofRatioOver s count q) := by
  refine (meets_factor hcount).bind ?_
  rintro _ ⟨hle, rfl⟩
  have hlen : (wholes (split (table.take count) q).1).length ≤ tableSize :=
    (length_wholes_split hle).trans_le hle
  refine Meets.mono (meets_checked_tame hF hs ?_ (.inr hlen) (vanish_of_length_le hlen)
    (.inr (not_isNaN_of_beq_zero zero_beq_zero))) fun n ⟨hn, ht⟩ => ⟨ht, hle, hn⟩
  refine hbits.imp_right fun hbits e he => (abs_le_of_mem_wholes_split q count e he).trans ?_
  calc (Ratio.bits q : ℚ) ≤ 2 ^ 900 := Ratio.cast_bits_le hbits
    _ ≤ 2 ^ 1023 := two_pow_le_two_pow (by norm_num)

theorem meets_unity (hs : F .tooLarge ∨ s.absurdExponent ≤ 2 ^ 900)
    (hcount : count ≤ tableSize) :
    Meets (fun m => m = { exps := List.replicate count 0 } ∧ Tame F m) F (unity s count) := by
  refine meets_checked_tame hF hs (.inr ?_) (.inr ?_) ?_
    (.inr (not_isNaN_of_beq_zero zero_beq_zero))
  · intro e he
    rw [List.eq_of_mem_replicate he, abs_zero]
    positivity
  · exact List.length_replicate.trans_le hcount
  · exact fun e he => List.eq_of_mem_replicate (List.mem_of_mem_drop he)

theorem meets_ofCents (hs : F .tooLarge ∨ s.absurdExponent ≤ 2 ^ 900)
    (hcount : count ≤ tableSize) {x : Float} (hx : x.isFinite) :
    Meets (fun m => m = { exps := List.replicate count 0, cents := x } ∧ Tame F m) F
      (ofCents s count x) := by
  refine meets_checked_tame hF hs (.inr ?_) (.inr ?_) ?_ (.inr (not_isNaN_of_isFinite hx))
  · intro e he
    rw [List.eq_of_mem_replicate he, abs_zero]
    positivity
  · exact List.length_replicate.trans_le hcount
  · exact fun e he => List.eq_of_mem_replicate (List.mem_of_mem_drop he)

/-! ## Widening -/

theorem meets_widen (hs : F .tooLarge ∨ s.absurdExponent ≤ 2 ^ 900) (hm : Tame F m)
    (hcount : F .tableExhausted ∨ count ≤ tableSize) : Meets (Tame F) F (m.widen s count) := by
  unfold widen
  split
  · next hlt =>
    refine (meets_factor hcount).bind ?_
    rintro _ ⟨hle, rfl⟩
    have hlen : (addExponents m.exps (split (table.take count) m.residual).1).length ≤
        tableSize := by
      rw [length_addExponents, (split_spec (distinct_table.take count) m.residual).1,
        length_take_table hle]
      exact max_le (hlt.le.trans hle) hle
    refine tame_checked hF hs ?_ (.inr hlen) (vanish_of_length_le hlen)
      (.inr (not_isNaN_of_isFinite hm.finite))
    rcases hm.exps_le with hF | hexps
    · exact .inl hF
    rcases hm.bits_le with hF | hbits
    · exact .inl hF
    refine .inr fun e he => ?_
    have hsplit : ∀ k ∈ (split (table.take count) m.residual).1, |(k : ℚ)| ≤ 2 ^ 911 := by
      intro k hk
      calc |(k : ℚ)| ≤ Ratio.bits m.residual := abs_le_of_mem_split (distinct_table.take count) _ k hk
        _ ≤ 2 ^ 900 := Ratio.cast_bits_le hbits
        _ ≤ 2 ^ 911 := two_pow_le_two_pow (by norm_num)
    calc |e| ≤ 2 ^ 911 + 2 ^ 911 :=
          abs_le_of_mem_addExponents (by positivity) (by positivity) hexps hsplit e he
      _ ≤ 2 ^ 912 := add_le_two_pow le_rfl le_rfl
      _ ≤ 2 ^ 1023 := two_pow_le_two_pow (by norm_num)
  · exact hm

theorem meets_align (hs : F .tooLarge ∨ s.absurdExponent ≤ 2 ^ 900) (ha : Tame F a)
    (hb : Tame F b) : Meets (fun p => Tame F p.1 ∧ Tame F p.2) F (align s a b) :=
  (meets_widen hF hs ha hb.components_le).bind fun _ ha' =>
    (meets_widen hF hs hb ha.components_le).bind fun _ hb' => ⟨ha', hb'⟩

/-! ## Products and quotients -/

omit hF in
theorem exists_of_mem_zipWith {op : ℚ → ℚ → ℚ} {es fs : List ℚ} {e : ℚ} (h : e ∈ es.zipWith op fs) :
    ∃ x ∈ es, ∃ y ∈ fs, op x y = e := by
  obtain ⟨k, hk, rfl⟩ := List.mem_iff_getElem.mp h
  rw [List.length_zipWith] at hk
  exact ⟨es[k], List.getElem_mem _, fs[k], List.getElem_mem _, List.getElem_zipWith.symm⟩

/-- Combining the exponents of two tame values over the same primes. -/
theorem meets_checked_zipWith (hs : F .tooLarge ∨ s.absurdExponent ≤ 2 ^ 900) (ha : Tame F a)
    (hb : Tame F b) {op : ℚ → ℚ → ℚ} (h0 : op 0 0 = 0) (hop : ∀ x y, |op x y| ≤ |x| + |y|)
    {time residual : ℚ} {cents : Float} (hcents : cents.isNaN = false) :
    Meets (Tame F) F (checked s { time, exps := a.exps.zipWith op b.exps, residual, cents }) := by
  refine tame_checked hF hs ?_ ?_ ?_ (.inr hcents)
  · rcases ha.exps_le with hF | ha
    · exact .inl hF
    rcases hb.exps_le with hF | hb
    · exact .inl hF
    refine .inr fun e he => ?_
    obtain ⟨x, hx, y, hy, rfl⟩ := exists_of_mem_zipWith he
    calc |op x y| ≤ |x| + |y| := hop x y
      _ ≤ 2 ^ 912 := add_le_two_pow (ha x hx) (hb y hy)
      _ ≤ 2 ^ 1023 := two_pow_le_two_pow (by norm_num)
  · refine ha.components_le.imp_right fun hle => le_trans ?_ hle
    exact List.length_zipWith.trans_le (min_le_left _ _)
  · intro e he
    rw [List.drop_zipWith] at he
    obtain ⟨x, hx, y, hy, rfl⟩ := exists_of_mem_zipWith he
    rw [ha.vanish x hx, hb.vanish y hy, h0]

theorem meets_mul (hs : F .tooLarge ∨ s.absurdExponent ≤ 2 ^ 900) (ha : Tame F a)
    (hb : Tame F b) : Meets (Tame F) F (a.mul s b) :=
  (meets_align hF hs ha hb).bind fun _ ⟨ha', hb'⟩ =>
    meets_checked_zipWith hF hs ha' hb' (zero_add 0) abs_add_le
      (not_isNaN_add ha'.finite hb'.finite)

theorem meets_divNonzero (hs : F .tooLarge ∨ s.absurdExponent ≤ 2 ^ 900) (ha : Tame F a)
    (hb : Tame F b) : Meets (Tame F) F (a.divNonzero s b) :=
  (meets_align hF hs ha hb).bind fun _ ⟨ha', hb'⟩ =>
    meets_checked_zipWith hF hs ha' hb' (sub_zero 0) abs_sub
      (not_isNaN_sub ha'.finite hb'.finite)

end

end Monzo

/-! ## Values -/

/-- A value on which arithmetic fails with the permitted faults alone; arithmetic on real values
never fails. -/
def Value.Tame (F : Fault → Prop) : Value → Prop
  | .exact m => m.Tame F
  | .real _ => True

/-- The exponents or the residual of an exact value are astronomical. -/
def Value.Immense (v : Value) : Prop :=
  ∃ m, v = .exact m ∧ ((∃ e ∈ m.exps, 2 ^ 900 < |e|) ∨ 2 ^ 900 < Ratio.bits m.residual)

/-- An exact value has more components than the table has primes. -/
def Value.Sprawling (v : Value) : Prop := ∃ m, v = .exact m ∧ tableSize < m.components

/-- A value within some bounds is tame, unless it is astronomical or longer than the table. -/
theorem Value.IsBounded.tame {F : Fault → Prop} {v : Value} (h : v.IsBounded)
    (himmense : v.Immense → F .tooLarge) (hsprawling : v.Sprawling → F .tableExhausted) :
    v.Tame F := by
  cases v with
  | real a => trivial
  | exact m =>
    obtain ⟨t, ht⟩ := h
    have hrest := (Monzo.boundsFault?_eq_none_iff.mp ht).2
    have hlarge : F .tooLarge ∨ ¬ (Value.exact m).Immense := by
      by_cases h : (Value.exact m).Immense
      · exact .inl (himmense h)
      · exact .inr h
    exact {
      exps_le := hlarge.imp_right fun hsmall e he => by
        refine le_trans (not_lt.mp fun hlt => ?_) (two_pow_le_two_pow (show 900 ≤ 911 by norm_num))
        exact hsmall ⟨m, rfl, .inl ⟨e, he, hlt⟩⟩
      bits_le := hlarge.imp_right fun hsmall => not_lt.mp fun hlt => hsmall ⟨m, rfl, .inr hlt⟩
      components_le := by
        rcases lt_or_ge tableSize m.components with hlt | hle
        · exact .inl (hsprawling ⟨m, rfl, hlt⟩)
        · exact .inr hle
      vanish := Monzo.vanish_of_bounded ht
      finite := isFinite_of_not_exceeds hrest.not_nan hrest.cents_le }

section
variable {F : Fault → Prop} {s : Settings} {v w : Value} {m : Monzo} {q : ℚ} {count : Nat}
  (hF : ∀ f : Fault, f.family = .overflow → F f)

theorem Number.meets_toDouble (hq : F .tooLarge ∨ |q| ≤ 2 ^ 1023) :
    Meets (fun x => x.isFinite) F (Number.ratio q).toDouble := by
  rw [toDouble_eq]
  cases h : ofRat? q with
  | some x => exact isFinite_of_ofRat? h
  | none =>
    refine hq.resolve_right fun hle => ?_
    obtain ⟨x, hx⟩ := exists_ofRat?_of_abs_le hle
    rw [h] at hx
    cases hx

include hF

namespace Value

/-- The product of tame values. -/
theorem meets_mul (hs : F .tooLarge ∨ s.absurdExponent ≤ 2 ^ 900) (hv : v.Tame F)
    (hw : w.Tame F) : Meets (Tame F) F (v.mul s w) := by
  cases v with
  | real a => cases w <;> trivial
  | exact m =>
    cases w with
    | real b => trivial
    | exact n => exact (Monzo.meets_mul hF hs hv hw).map fun _ h => h

/-- The quotient of tame values. -/
theorem meets_div (hs : F .tooLarge ∨ s.absurdExponent ≤ 2 ^ 900) (hv : v.Tame F)
    (hw : w.Tame F) : Meets (Tame F) F (v.div s w) := by
  cases v with
  | real a => cases w <;> trivial
  | exact m =>
    cases w with
    | real b => trivial
    | exact n =>
      show Meets _ _ (m.div s n)
      unfold Monzo.div
      split
      · trivial
      · exact (Monzo.meets_divNonzero hF hs hv hw).map fun _ h => h

end Value

namespace Monzo

/-- A scalar to an irrational power exceeds the bounds at worst. -/
theorem meets_irrationalPow (htime : m.time = 0) (x : Float) :
    Meets (Value.Tame F) F (m.irrationalPow s x) := by
  rw [irrationalPow, if_neg (not_not.mpr htime)]
  refine Meets.map (P := fun _ => True) ?_ fun _ _ => trivial
  rw [Approx.pow, Approx.powTime, if_pos (show m.toApprox.time = 0 from htime)]
  refine Meets.bind (P := fun _ => True) (x := .ok (0 : ℚ)) trivial fun _ _ => ?_
  refine Meets.bind (P := fun _ => True) ?_ fun _ _ => trivial
  unfold Approx.powValue
  split
  · trivial
  · show Meets _ _ (if _ then (if _ then _ else _) else _)
    split
    · split
      · trivial
      · exact hF _ rfl
    · trivial

/-- A tame value in other time units and with another correction. -/
theorem meets_checked_timed (hs : F .tooLarge ∨ s.absurdExponent ≤ 2 ^ 900) (hm : Tame F m)
    {time : ℚ} {cents : Float} (hcents : cents.isNaN = false) :
    Meets (Tame F) F (checked s { time, exps := m.exps, residual := m.residual, cents }) := by
  refine tame_checked hF hs ?_ hm.components_le hm.vanish (.inr hcents)
  exact hm.exps_le.imp_right fun hle e he => (hle e he).trans (two_pow_le_two_pow (by norm_num))

omit hF in
theorem vanish_reciprocal (h : ∀ e ∈ m.exps.drop count, e = 0) :
    ∀ e ∈ m.reciprocal.exps.drop count, e = 0 := by
  intro e he
  rw [reciprocal, ← List.map_drop] at he
  obtain ⟨x, hx, rfl⟩ := List.mem_map.mp he
  rw [h x hx, neg_zero]

/-- The reciprocal of a tame value. -/
theorem meets_checked_reciprocal (hs : F .tooLarge ∨ s.absurdExponent ≤ 2 ^ 900)
    (hm : Tame F m) : Meets (Tame F) F (checked s m.reciprocal) := by
  refine tame_checked hF hs ?_ ?_ ?_ (.inr (not_isNaN_neg hm.finite))
  · refine hm.exps_le.imp_right fun hle e he => ?_
    obtain ⟨x, hx, rfl⟩ := List.mem_map.mp he
    rw [abs_neg]
    exact (hle x hx).trans (two_pow_le_two_pow (by norm_num))
  · exact hm.components_le.imp_right fun hle => (List.length_map _).trans_le hle
  · exact vanish_reciprocal hm.vanish

/-- Scaling the exponents of a tame value. -/
theorem meets_checked_scaled (hs : F .tooLarge ∨ s.absurdExponent ≤ 2 ^ 900) (hm : Tame F m)
    (hfit : F .tooLarge ∨ ∀ e ∈ m.exps, |e * q| ≤ 2 ^ 1023) {time residual : ℚ} {cents : Float}
    (hcents : F .invalidCents ∨ cents.isNaN = false) :
    Meets (Tame F) F (checked s { time, exps := m.exps.map (· * q), residual, cents }) := by
  refine tame_checked hF hs ?_ ?_ ?_ hcents
  · refine hfit.imp_right fun hfit e he => ?_
    obtain ⟨x, hx, rfl⟩ := List.mem_map.mp he
    exact hfit x hx
  · exact hm.components_le.imp_right fun hle => (List.length_map _).trans_le hle
  · intro e he
    rw [← List.map_drop] at he
    obtain ⟨x, hx, rfl⟩ := List.mem_map.mp he
    rw [hm.vanish x hx, zero_mul]

/-- A power of a positive scalar. -/
theorem meets_powRatio (hs : F .tooLarge ∨ s.absurdExponent ≤ 2 ^ 900) (hm : Tame F m)
    (htime : m.time = 0) (hpos : 0 < m.residual)
    (hsize : m.residual = 1 ∨ F .invalidCents ∨ (m.cents + 1200 * log2Ratio m.residual).isFinite)
    (hq : F .tooLarge ∨ |q| ≤ 2 ^ 1023) (hfit : F .tooLarge ∨ ∀ e ∈ m.exps, |e * q| ≤ 2 ^ 1023) :
    Meets (Value.Tame F) F (m.powRatio s q) := by
  unfold powRatio
  split
  · exact (Number.meets_toDouble hq).bind fun x _ => meets_irrationalPow hF htime x
  · split
    · exact hF _ rfl
    · split
      · refine (Number.meets_toDouble hq).bind fun x hx => ?_
        refine (meets_checked_scaled hF hs hm hfit
          (.inr (not_isNaN_mul hm.finite hx))).bind fun n hn => ?_
        exact hn
      · next hnone =>
        refine (Number.meets_toDouble hq).bind fun x hx => ?_
        rw [if_neg (not_le.mpr hpos)]
        have hcents : F .invalidCents ∨
            ((m.cents + 1200 * log2Ratio m.residual) * x).isNaN = false := by
          rcases hsize with hone | hpermitted | hfinite
          · rw [hone, Ratio.pow?_one] at hnone
            cases hnone
          · exact .inl hpermitted
          · exact .inr (not_isNaN_mul hfinite hx)
        exact (meets_checked_scaled hF hs hm hfit hcents).bind fun n hn => hn

/-! ## Powers of ratios -/

omit hF in
/-- The exponents of a ratio of moderate length fit a double when they are scaled. -/
theorem fits_of_ratio (hbits : F .tooLarge ∨ Ratio.bits p ≤ 2 ^ 100)
    (hq : F .tooLarge ∨ |q| ≤ 2 ^ 900) : F .tooLarge ∨
      ∀ e ∈ wholes (split (table.take count) p).1, |e * q| ≤ 2 ^ 1023 := by
  rcases hbits with hF | hbits
  · exact .inl hF
  refine hq.imp_right fun hq e he => ?_
  have hsmall : |e| ≤ 2 ^ 100 :=
    (abs_le_of_mem_wholes_split p count e he).trans (Ratio.cast_bits_le hbits)
  exact (abs_mul_le_two_pow hsmall hq).trans (two_pow_le_two_pow (by norm_num))

/-- A ratio raised to a power, whose residual may leave a correction. -/
theorem meets_ofTemperament (hs : F .tooLarge ∨ s.absurdExponent ≤ 2 ^ 900)
    (hcount : count ≤ tableSize) (hpos : 0 < p) (hbits : F .tooLarge ∨ Ratio.bits p ≤ 2 ^ 100)
    (hq : F .tooLarge ∨ |q| ≤ 2 ^ 900)
    (hsize : (split (table.take count) p).2 = 1 ∨ F .invalidCents ∨
      (1200 * log2Ratio (split (table.take count) p).2).isFinite) :
    Meets (Tame F) F (ofTemperament s count q p) := by
  have hwide : F .tooLarge ∨ Ratio.bits p ≤ 2 ^ 900 :=
    hbits.imp_right (Ratio.bits_le_two_pow · (by norm_num))
  have hfit : F .tooLarge ∨ ∀ e ∈ wholes (split (table.take count) p).1, |e * q| ≤ 2 ^ 1023 :=
    fits_of_ratio hbits hq
  have hdouble : F .tooLarge ∨ |q| ≤ 2 ^ 1023 :=
    hq.imp_right (le_trans · (two_pow_le_two_pow (by norm_num)))
  refine (meets_ofRatioOver hF hs hwide (.inr hcount)).bind ?_
  rintro _ ⟨hm, -, rfl⟩
  have hres : 0 < (split (table.take count) p).2 := residual_pos hpos
  simp only
  split
  · exact meets_checked_scaled hF hs hm hfit (.inr (not_isNaN_of_beq_zero zero_beq_zero))
  · next hnone =>
    rw [if_neg hres.ne']
    have htoDouble := Number.meets_toDouble (F := F) hdouble
    rw [Number.toDouble_eq] at htoDouble
    cases hx : ofRat? q with
    | none =>
      rw [hx] at htoDouble
      exact htoDouble
    | some x =>
      rw [hx] at htoDouble
      refine meets_checked_scaled hF hs hm hfit ?_
      rcases hsize with hone | hpermitted | hfinite
      · rw [hone, Ratio.pow?_one] at hnone
        cases hnone
      · exact .inl hpermitted
      · exact .inr (not_isNaN_mul hfinite htoDouble)

/-- A frequency. -/
theorem meets_ofFrequencyOver (hs : F .tooLarge ∨ s.absurdExponent ≤ 2 ^ 900)
    (hcount : count ≤ tableSize) (hbits : F .tooLarge ∨ Ratio.bits p ≤ 2 ^ 900) :
    Meets (Tame F) F (ofFrequencyOver s count p) := by
  refine (meets_ofRatioOver hF hs hbits (.inr hcount)).bind fun m ⟨hm, _⟩ => ?_
  exact meets_checked_timed hF hs hm (not_isNaN_of_beq_zero zero_beq_zero)

end Monzo
end

end Intonation
