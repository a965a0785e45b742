import Intonation.Value.Arithmetic
import Intonation.Proofs.Monzo.Spread
import Intonation.Proofs.Literal.RatioPower

/-!
# Products as a vector space

The values that are not zero and carry no real correction multiply like the vectors of a rational
vector space, whatever the numbers of primes that they track. Both sides of a law are compared over
the primes of the result: there a product adds exponents and multiplies residuals, and the order in
which the bases grew is forgotten.

## Main definitions

* `Monzo.inverted`: the exponents and the residual of a reciprocal
* `Monzo.Reaches`: a value can be taken over a number of primes
* `Monzo.GroupLaws`, `Monzo.PowerLaws`: the laws of products and of powers

## Main statements

* `groupLaws`, `powerLaws`: they hold
* `vectorSpace`: both at once
-/

namespace Intonation.Monzo
open Double Intonation.Prime

variable {s : Settings} {a b c m n u : Monzo} {p q r : List ℚ × ℚ} {count : Nat}

/-! ## The group of exponents and residuals -/

/-- The exponents and the residual of the reciprocal. -/
def inverted (p : List ℚ × ℚ) : List ℚ × ℚ := (p.1.map fun e => -e, p.2⁻¹)

/-- The exponents and the residual of one. -/
def neutral (count : Nat) : List ℚ × ℚ := (List.replicate count 0, 1)

/-- The exponents and the residual of a power of a value without a residual. -/
def powered (x : ℚ) (p : List ℚ × ℚ) : List ℚ × ℚ := (p.1.map (· * x), 1)

theorem combined_assoc (p q r : List ℚ × ℚ) :
    combined (combined p q) r = combined p (combined q r) := by
  refine Prod.ext ?_ (mul_assoc _ _ _)
  apply List.ext_getElem
  · simp [combined, min_assoc]
  · intro k _ _
    simp [combined, add_assoc]

theorem combined_neutral (p : List ℚ × ℚ) : combined p (neutral p.1.length) = p := by
  refine Prod.ext ?_ (mul_one _)
  apply List.ext_getElem
  · simp [combined, neutral]
  · intro k _ _
    simp [combined, neutral]

theorem combined_inverted (hp : p.2 ≠ 0) : combined p (inverted p) = neutral p.1.length := by
  refine Prod.ext ?_ (mul_inv_cancel₀ hp)
  apply List.ext_getElem
  · simp [combined, inverted, neutral]
  · intro k _ _
    simp [combined, inverted, neutral]

/-- A factor is the product with the reciprocal of the other factor. -/
theorem eq_combined_inverted (hlen : p.1.length = q.1.length) (hq : q.2 ≠ 0)
    (h : r = combined p q) : p = combined r (inverted q) := by
  rw [h, combined_assoc, combined_inverted hq, ← hlen, combined_neutral]

theorem powered_add (x y : ℚ) (p : List ℚ × ℚ) :
    powered (x + y) p = combined (powered x p) (powered y p) := by
  refine Prod.ext ?_ (mul_one _).symm
  apply List.ext_getElem
  · simp [combined, powered]
  · intro k _ _
    simp [combined, powered, mul_add]

theorem powered_powered (x y : ℚ) (p : List ℚ × ℚ) :
    powered y (powered x p) = powered (x * y) p := by
  simp [powered]

theorem powered_combined (x : ℚ) (p q : List ℚ × ℚ) :
    powered x (combined p q) = combined (powered x p) (powered x q) := by
  refine Prod.ext ?_ (mul_one _).symm
  apply List.ext_getElem
  · simp [combined, powered]
  · intro k _ _
    simp [combined, powered, add_mul]

/-! ## Reciprocals and powers over more primes -/

theorem split_inv {primes : List Nat} (h : Distinct primes) {q : ℚ} (hq : q ≠ 0) :
    split primes q⁻¹ = ((split primes q).1.map fun k => -k, (split primes q).2⁻¹) := by
  obtain ⟨hlen, hfree, hprod⟩ := split_spec h q
  have hres := (residual_split_ne_zero_iff h).mpr hq
  refine split_eq_of_eq_mul h ?_ (inv_ne_zero hres) (.inv h hfree) ?_
  · rw [List.length_map, hlen]
  · rw [powerProduct_map_neg, ← mul_inv, hprod]

theorem addExponents_map_neg (es : List ℚ) (ns : List Int) :
    addExponents (es.map fun e => -e) (ns.map fun k => -k) =
      (addExponents es ns).map fun e => -e := by
  induction ns generalizing es with
  | nil => rw [List.map_nil, addExponents_nil, addExponents_nil]
  | cons k ns ih =>
    cases es with
    | nil =>
      rw [List.map_nil, List.map_cons, addExponents, addExponents, List.map_cons, Int.cast_neg,
        ← ih [], List.map_nil]
    | cons e es =>
      rw [List.map_cons, List.map_cons, addExponents, addExponents, List.map_cons, Int.cast_neg,
        ← ih es, neg_add]

/-- What a reciprocal is over more primes. -/
theorem spread_inverted (count : Nat) (hp : p.2 ≠ 0) :
    spread count (inverted p) = inverted (spread count p) := by
  have hlen : (inverted p).1.length = p.1.length := List.length_map _
  by_cases hlt : p.1.length < count
  · rw [spread, if_pos (hlen.trans_lt hlt), spread, if_pos hlt]
    show (addExponents (p.1.map _) (split _ p.2⁻¹).1, (split _ p.2⁻¹).2) = _
    rw [split_inv (distinct_table.take count) hp, addExponents_map_neg]
    rfl
  · have hle := not_lt.mp hlt
    rw [spread_of_le (p := p) hle, spread_of_le (hle.trans_eq hlen.symm)]

/-! ## Over the primes of the result -/

theorem spread_components (m : Monzo) : spread m.components m.parts = m.parts := spread_of_le le_rfl

theorem widen_max (a : Monzo) (count : Nat) :
    a.widen s (max a.components count) = a.widen s count := by
  unfold widen
  rcases le_or_gt count a.components with hle | hlt
  · rw [max_eq_left hle, if_neg (lt_irrefl _), if_neg hle.not_gt]
  · rw [max_eq_right hlt.le]

/-- Both factors can be widened to the primes of the product. -/
theorem exists_widen_of_mul (h : a.mul s b = .ok m) :
    (∃ c, a.widen s m.components = .ok c) ∧ ∃ d, b.widen s m.components = .ok d := by
  rw [(parts_of_mul h).2.1, widen_max, max_comm, widen_max]
  obtain ⟨⟨c, d⟩, halign, -⟩ := bind_eq_ok.mp h
  obtain ⟨c, hc, halign⟩ := bind_eq_ok.mp halign
  obtain ⟨d, hd, -⟩ := bind_eq_ok.mp halign
  exact ⟨⟨c, hc⟩, d, hd⟩

/-- A value can be taken over a number of primes: it tracks as many, or the table has as many. -/
def Reaches (m : Monzo) (count : Nat) : Prop :=
  m.components ≤ count ∧ (count ≤ tableSize ∨ m.components = count)

namespace Reaches

theorem refl (m : Monzo) : m.Reaches m.components := ⟨le_rfl, .inr rfl⟩

theorem trans (h : a.Reaches m.components) (h' : m.Reaches count) : a.Reaches count := by
  unfold Reaches at *
  omega

theorem of_widen (h : a.widen s count = .ok m) : a.Reaches (max a.components count) := by
  by_cases hlt : a.components < count
  · rw [widen, if_pos hlt] at h
    obtain ⟨parts, hparts, -⟩ := bind_eq_ok.mp h
    have hle := (factor_eq_ok_iff.mp hparts).1
    exact ⟨le_max_left _ _, .inl (by omega)⟩
  · exact ⟨le_max_left _ _, .inr (by omega)⟩

/-- Both factors reach the primes of the product. -/
theorem of_mul (h : a.mul s b = .ok m) : a.Reaches m.components ∧ b.Reaches m.components := by
  obtain ⟨⟨c, hc⟩, d, hd⟩ := exists_widen_of_mul h
  have hm := (parts_of_mul h).2.1
  have ha := of_widen hc
  have hb := of_widen hd
  rw [hm, ← max_assoc, max_self, ← hm] at ha
  rw [hm, max_left_comm, max_self, ← hm] at hb
  exact ⟨ha, hb⟩

theorem length_spread (h : a.Reaches count) : (spread count a.parts).1.length = count := by
  obtain ⟨hle, htable | heq⟩ := h
  · rw [Monzo.length_spread htable]
    exact max_eq_right hle
  · rw [spread_of_le heq.ge]
    exact heq

/-- A product over any number of primes that its factors reach. -/
theorem spread_mul (ha : a.Reaches count) (hb : b.Reaches count) (ha0 : a.residual ≠ 0)
    (hb0 : b.residual ≠ 0) (h : a.mul s b = .ok m) :
    spread count m.parts = combined (spread count a.parts) (spread count b.parts) := by
  rcases le_or_gt count tableSize with htable | htable
  · exact spread_of_mul htable ha.1 hb.1 h ha0 hb0
  · -- beyond the table nothing grows
    have hac := ha.2.resolve_left htable.not_ge
    have hbc := hb.2.resolve_left htable.not_ge
    obtain ⟨hparts, hm, -⟩ := parts_of_mul h
    rw [spread_of_le (show count ≤ m.components by omega), spread_of_le (p := a.parts) hac.ge,
      spread_of_le (p := b.parts) hbc.ge, hparts,
      spread_of_le (show b.components ≤ a.components by omega),
      spread_of_le (show a.components ≤ b.components by omega)]

theorem spread_neutral (hu : u.Reaches count) (h : u.parts = neutral u.components) :
    spread count u.parts = neutral count := by
  rw [h]
  obtain ⟨hle, htable | heq⟩ := hu
  · rw [neutral, spread_one htable, padded, List.replicate_append_replicate, List.length_replicate,
      Nat.add_sub_cancel' hle, neutral]
  · rw [spread_of_le, heq]
    simp [neutral, heq]

theorem residual_spread (ha : a.Reaches count) (hres : a.residual = 1) :
    (spread count a.parts).2 = 1 := by
  obtain ⟨-, htable | heq⟩ := ha
  · rw [parts, hres, spread_one htable]
  · rw [spread_of_le (p := a.parts) heq.ge]
    exact hres

/-- A power of a value without a residual over more primes. -/
theorem spread_powered (ha : a.Reaches count) (hres : a.residual = 1) (x : ℚ) :
    spread count (powered x a.parts) = powered x (spread count a.parts) := by
  have hparts : a.parts = (a.exps, 1) := by rw [parts, hres]
  obtain ⟨-, htable | heq⟩ := ha
  · rw [hparts, powered, spread_one htable, spread_one htable, powered,
      map_padded (zero_mul x)]
  · rw [spread_of_le (p := a.parts) heq.ge, spread_of_le]
    exact heq.ge.trans_eq (List.length_map _).symm

end Reaches

/-- A product over its own primes. -/
theorem parts_of_mul_nonzero (ha : a.residual ≠ 0) (hb : b.residual ≠ 0) (h : a.mul s b = .ok m) :
    m.parts = combined (spread m.components a.parts) (spread m.components b.parts) := by
  obtain ⟨hreacha, hreachb⟩ := Reaches.of_mul h
  rw [← hreacha.spread_mul hreachb ha hb h, spread_components]

/-! ## Strict equality -/

/-- Strict equality with a value over no more primes, once that value is widened. -/
theorem strictEquals_of_widen (hle : a.components ≤ m.components)
    (h : a.widen s m.components = .ok c) (hparts : m.parts = spread m.components a.parts)
    (htime : m.time = a.time) (hm : m.cents == 0) (ha : a.cents == 0) :
    m.strictEquals s a = .ok true := by
  obtain ⟨hc, hctime, hccents⟩ := parts_of_widen h
  have heq : m.parts = c.parts := hparts.trans hc.symm
  have hwide : m.widen s a.components = .ok m := by rw [widen, if_neg hle.not_gt]
  refine bind_eq_ok.mpr ⟨(m, c), bind_eq_ok.mpr ⟨m, hwide, bind_eq_ok.mpr ⟨c, h, rfl⟩⟩, ?_⟩
  have hcents : m.cents == c.cents := hccents ▸ beq_of_beq_zero hm ha
  simp [htime, hctime, show m.exps = c.exps from congrArg Prod.fst heq,
    show m.residual = c.residual from congrArg Prod.snd heq, hcents]

/-- Values with the same parts are strictly equal. -/
theorem strictEquals_of_parts (hparts : m.parts = n.parts) (htime : m.time = n.time)
    (hm : m.cents == 0) (hn : n.cents == 0) : m.strictEquals s n = .ok true := by
  have hlen : m.components = n.components := congrArg (fun p => p.1.length) hparts
  refine strictEquals_of_widen (c := n) hlen.ge ?_ ?_ htime hm hn
  · rw [widen, if_neg hlen.not_gt]
  · rw [spread_of_le (show m.components ≤ n.components from hlen.le), hparts]

/-! ## Results of the operations -/

/-- A value that is not zero and carries no real correction. -/
structure Logarithmic (m : Monzo) : Prop where
  nonzero : m.residual ≠ 0
  uncorrected : m.cents == 0

namespace Logarithmic

theorem mul (ha : a.Logarithmic) (hb : b.Logarithmic) (h : a.mul s b = .ok m) :
    m.Logarithmic ∧ m.time = a.time + b.time := by
  obtain ⟨hparts, -, htime, hcents, -⟩ := parts_of_mul h
  refine ⟨⟨?_, hcents ▸ add_beq_zero ha.uncorrected hb.uncorrected⟩, htime⟩
  rw [show m.residual = _ from congrArg Prod.snd hparts]
  exact mul_ne_zero (spread_ne_zero_iff.mpr ha.nonzero) (spread_ne_zero_iff.mpr hb.nonzero)

theorem inverse {v : Value} (ha : a.Logarithmic) (h : a.inverse s = .ok v) :
    ∃ m : Monzo, v = .exact m ∧ m.Logarithmic ∧ m.parts = inverted a.parts ∧
      m.time = -a.time := by
  rw [Monzo.inverse, if_neg ha.nonzero] at h
  obtain ⟨m, hm, rfl⟩ := map_eq_ok.mp h
  obtain ⟨-, rfl⟩ := checked_eq_ok_iff.mp hm
  exact ⟨_, rfl, ⟨inv_ne_zero ha.nonzero, neg_beq_zero ha.uncorrected⟩, rfl, rfl⟩

theorem div {v : Value} (ha : a.Logarithmic) (hb : b.Logarithmic) (h : a.div s b = .ok v) :
    ∃ m : Monzo, v = .exact m ∧ m.cents == 0 ∧ m.time = a.time - b.time ∧
      m.parts = combined (spread b.components a.parts) (inverted (spread a.components b.parts)) := by
  have hexact : ∃ m, v = .exact m := by
    rw [Monzo.div, if_neg hb.nonzero] at h
    obtain ⟨m, -, rfl⟩ := map_eq_ok.mp h
    exact ⟨m, rfl⟩
  obtain ⟨m, rfl⟩ := hexact
  obtain ⟨hparts, hm, htime, hcents, -⟩ := parts_of_div h
  obtain ⟨c, d, halign, -⟩ := exists_align_of_div h
  have hlen : m.parts.1.length = (spread a.components b.parts).1.length := by
    rw [← (parts_of_align halign).2.1]
    exact hm.trans (components_of_align halign).2.symm
  exact ⟨m, rfl, hcents ▸ sub_beq_zero ha.uncorrected hb.uncorrected, htime,
    eq_combined_inverted hlen (spread_ne_zero_iff.mpr hb.nonzero) hparts⟩

/-- Powers of a value without a residual. -/
theorem pow {v : Value} {x : ℚ} (ha : a.Logarithmic) (hres : a.residual = 1)
    (hden : x.den < s.maxPowDenominator) (h : a.powRatio s x = .ok v) :
    ∃ m : Monzo, v = .exact m ∧ m.Logarithmic ∧ m.residual = 1 ∧ m.parts = powered x a.parts ∧
      m.time = a.time * x := by
  have hpow : Ratio.pow? a.residual x = some 1 := by rw [hres, Ratio.pow?_one]
  obtain ⟨y, -, hy, ⟨q, m, hq, rfl, hm⟩ | ⟨hnone, -⟩ | ⟨hnone, -⟩⟩ := powRatio_spec hden h
  · rw [hpow] at hq
    cases hq
    obtain ⟨-, rfl⟩ := checked_eq_ok_iff.mp hm
    exact ⟨_, rfl, ⟨one_ne_zero, beq_zero_mul ha.uncorrected hy⟩, rfl, rfl, rfl⟩
  · rw [hpow] at hnone
    cases hnone
  · rw [hpow] at hnone
    cases hnone

end Logarithmic

theorem residual_of_mul (ha : a.residual = 1) (hb : b.residual = 1) (h : a.mul s b = .ok m) :
    m.residual = 1 := by
  obtain ⟨hreacha, hreachb⟩ := Reaches.of_mul h
  have hm := parts_of_mul_nonzero (ha ▸ one_ne_zero) (hb ▸ one_ne_zero) h
  rw [show m.residual = _ from congrArg Prod.snd hm, combined, hreacha.residual_spread ha,
    hreachb.residual_spread hb, MulOneClass.one_mul]

theorem components_of_inverted (h : m.parts = inverted a.parts) :
    m.components = a.components := by
  have hlen := congrArg (fun p => p.1.length) h
  exact hlen.trans (List.length_map _)

theorem components_of_powered {x : ℚ} (h : m.parts = powered x a.parts) :
    m.components = a.components := by
  have hlen := congrArg (fun p => p.1.length) h
  exact hlen.trans (List.length_map _)

theorem unity_spec (h : unity s count = .ok u) :
    u.Logarithmic ∧ u.components = count ∧ u.parts = neutral u.components ∧ u.time = 0 ∧
      IsVector s u (List.replicate count 0) := by
  obtain ⟨hbounded, rfl⟩ := checked_eq_ok_iff.mp h
  have hlen : (List.replicate count (0 : ℚ)).length = count := List.length_replicate
  refine ⟨⟨one_ne_zero, zero_beq_zero⟩, hlen, ?_, rfl, ⟨rfl, rfl, rfl, zero_beq_zero, hbounded⟩⟩
  rw [components, hlen]
  rfl

/-! ## The laws -/

/-- Two computations agree when the results are strictly equal, should both return. -/
def Agree (s : Settings) : Except Fault Value → Except Fault Value → Prop :=
  Both fun v w => v.strictEquals s w = .ok true

/-- The multiplicative identity as a value. -/
def one (s : Settings) (count : Nat) : Except Fault Value := (unity s count).map .exact

/-- The laws of an abelian group. A product with the reciprocal is the identity, and it compares
with the identity over any number of primes unless one of the two cannot be widened for lack of
primes in the table. -/
structure GroupLaws (s : Settings) (a b c : Monzo) : Prop where
  mul_comm : Agree s (Value.mul s (.exact a) (.exact b)) (Value.mul s (.exact b) (.exact a))
  mul_assoc : Agree s (do Value.mul s (← Value.mul s (.exact a) (.exact b)) (.exact c))
    (do Value.mul s (.exact a) (← Value.mul s (.exact b) (.exact c)))
  mul_one (count : Nat) : Agree s (do Value.mul s (.exact a) (← one s count)) (.ok (.exact a))
  one_mul (count : Nat) : Agree s (do Value.mul s (← one s count) (.exact a)) (.ok (.exact a))
  mul_inverse (v : Value) (h : (Value.inverse s (.exact a) >>= Value.mul s (.exact a)) = .ok v) :
    ∃ m : Monzo, v = .exact m ∧ m.isUnity = true ∧ ∀ count u, unity s count = .ok u →
      m.strictEquals s u =
        if count = a.components ∨ max count a.components ≤ tableSize then .ok true
        else .error .tableExhausted
  div_eq_mul_inverse : Agree s (Value.div s (.exact a) (.exact b))
    (do Value.mul s (.exact a) (← Value.inverse s (.exact b)))

/-- The laws of powers. -/
structure PowerLaws (s : Settings) (a b : Monzo) (x y : ℚ) : Prop where
  pow_add : Agree s (Value.powNumber s (.exact a) (.ratio (x + y))) do
    let u ← Value.powNumber s (.exact a) (.ratio x)
    let v ← Value.powNumber s (.exact a) (.ratio y)
    Value.mul s u v
  pow_mul : Agree s (Value.powNumber s (.exact a) (.ratio (x * y))) do
    let u ← Value.powNumber s (.exact a) (.ratio x)
    Value.powNumber s u (.ratio y)
  mul_pow : Agree s
    (do
      let u ← Value.mul s (.exact a) (.exact b)
      Value.powNumber s u (.ratio x))
    (do
      let u ← Value.powNumber s (.exact a) (.ratio x)
      let v ← Value.powNumber s (.exact b) (.ratio x)
      Value.mul s u v)

section
variable (ha : a.Logarithmic) (hb : b.Logarithmic) (hc : c.Logarithmic)
include ha hb

theorem mul_comm_agree :
    Agree s (Value.mul s (.exact a) (.exact b)) (Value.mul s (.exact b) (.exact a)) := by
  intro v hv w hw
  obtain ⟨m, hm, rfl⟩ := map_eq_ok.mp hv
  obtain ⟨n, hn, rfl⟩ := map_eq_ok.mp hw
  obtain ⟨hlogm, htm⟩ := ha.mul hb hm
  obtain ⟨hlogn, htn⟩ := hb.mul ha hn
  refine strictEquals_of_parts ?_ ?_ hlogm.uncorrected hlogn.uncorrected
  · rw [(parts_of_mul hm).1, (parts_of_mul hn).1, combined_comm]
  · rw [htm, htn, add_comm]

include hc in
theorem mul_assoc_agree :
    Agree s (do Value.mul s (← Value.mul s (.exact a) (.exact b)) (.exact c))
      (do Value.mul s (.exact a) (← Value.mul s (.exact b) (.exact c))) := by
  intro v hv w hw
  obtain ⟨v', hv', hv⟩ := bind_eq_ok.mp hv
  obtain ⟨w', hw', hw⟩ := bind_eq_ok.mp hw
  obtain ⟨ab, hab, rfl⟩ := map_eq_ok.mp hv'
  obtain ⟨bc, hbc, rfl⟩ := map_eq_ok.mp hw'
  obtain ⟨m, hm, rfl⟩ := map_eq_ok.mp hv
  obtain ⟨n, hn, rfl⟩ := map_eq_ok.mp hw
  obtain ⟨hlogab, htab⟩ := ha.mul hb hab
  obtain ⟨hlogbc, htbc⟩ := hb.mul hc hbc
  obtain ⟨hlogm, htm⟩ := hlogab.mul hc hm
  obtain ⟨hlogn, htn⟩ := ha.mul hlogbc hn
  have hcomponents : m.components = n.components := by
    rw [(parts_of_mul hm).2.1, (parts_of_mul hn).2.1, (parts_of_mul hab).2.1,
      (parts_of_mul hbc).2.1, max_assoc]
  -- all operands reach the primes of the results, however the bases grew on the way
  obtain ⟨hreachab, -⟩ := Reaches.of_mul hm
  obtain ⟨hreacha, hreachb⟩ := Reaches.of_mul hab
  have hleft := parts_of_mul_nonzero hlogab.nonzero hc.nonzero hm
  rw [(hreacha.trans hreachab).spread_mul (hreachb.trans hreachab) ha.nonzero hb.nonzero hab]
    at hleft
  obtain ⟨-, hreachbc⟩ := Reaches.of_mul hn
  obtain ⟨hreachb', hreachc⟩ := Reaches.of_mul hbc
  have hright := parts_of_mul_nonzero ha.nonzero hlogbc.nonzero hn
  rw [(hreachb'.trans hreachbc).spread_mul (hreachc.trans hreachbc) hb.nonzero hc.nonzero hbc]
    at hright
  refine strictEquals_of_parts ?_ ?_ hlogm.uncorrected hlogn.uncorrected
  · rw [hleft, hright, hcomponents, combined_assoc]
  · rw [htm, htn, htab, htbc, add_assoc]

theorem div_agree : Agree s (Value.div s (.exact a) (.exact b))
    (do Value.mul s (.exact a) (← Value.inverse s (.exact b))) := by
  intro v hv w hw
  obtain ⟨m, rfl, hcents, htm, hm⟩ := ha.div hb hv
  obtain ⟨w', hw', hw⟩ := bind_eq_ok.mp hw
  obtain ⟨b', rfl, hlogb', hpb', htb'⟩ := hb.inverse hw'
  obtain ⟨n, hn, rfl⟩ := map_eq_ok.mp hw
  obtain ⟨hlogn, htn⟩ := ha.mul hlogb' hn
  have hlen : b'.components = b.components := components_of_inverted hpb'
  refine strictEquals_of_parts ?_ ?_ hcents hlogn.uncorrected
  · rw [hm, (parts_of_mul hn).1, hpb', spread_inverted _ hb.nonzero, hlen]
  · rw [htm, htn, htb', sub_eq_add_neg]

end

/-- A product with one over any number of primes. -/
theorem strictEquals_of_mul_unity (ha : a.Logarithmic) (hu : unity s count = .ok u)
    (h : a.mul s u = .ok m) : m.strictEquals s a = .ok true := by
  obtain ⟨hlogu, hcount, hpu, htu, -⟩ := unity_spec hu
  obtain ⟨hlogm, htm⟩ := ha.mul hlogu h
  obtain ⟨hreacha, hreachu⟩ := Reaches.of_mul h
  obtain ⟨⟨c, hc⟩, -⟩ := exists_widen_of_mul h
  have hneutral := combined_neutral (spread m.components a.parts)
  rw [hreacha.length_spread, ← hreachu.spread_neutral hpu,
    ← parts_of_mul_nonzero ha.nonzero hlogu.nonzero h] at hneutral
  refine strictEquals_of_widen hreacha.1 hc hneutral ?_ hlogm.uncorrected ha.uncorrected
  rw [htm, htu, add_zero]

/-- A product of one over any number of primes. -/
theorem strictEquals_of_unity_mul (ha : a.Logarithmic) (hu : unity s count = .ok u)
    (h : u.mul s a = .ok m) : m.strictEquals s a = .ok true := by
  obtain ⟨hlogu, hcount, hpu, htu, -⟩ := unity_spec hu
  obtain ⟨hlogm, htm⟩ := hlogu.mul ha h
  obtain ⟨hreachu, hreacha⟩ := Reaches.of_mul h
  obtain ⟨-, c, hc⟩ := exists_widen_of_mul h
  have hneutral := combined_neutral (spread m.components a.parts)
  rw [combined_comm, hreacha.length_spread, ← hreachu.spread_neutral hpu,
    ← parts_of_mul_nonzero hlogu.nonzero ha.nonzero h] at hneutral
  refine strictEquals_of_widen hreacha.1 hc hneutral ?_ hlogm.uncorrected ha.uncorrected
  rw [htm, htu, zero_add]

section
variable (ha : a.Logarithmic) (hra : a.residual = 1) {x y : ℚ}
include ha hra

theorem pow_add_agree (hx : x.den < s.maxPowDenominator) (hy : y.den < s.maxPowDenominator)
    (hadd : (x + y).den < s.maxPowDenominator) :
    Agree s (Value.powNumber s (.exact a) (.ratio (x + y))) (do
      let u ← Value.powNumber s (.exact a) (.ratio x)
      let v ← Value.powNumber s (.exact a) (.ratio y)
      Value.mul s u v) := by
  intro v hv w hw
  obtain ⟨m, rfl, hlogm, hrm, hpm, htm⟩ := ha.pow hra hadd hv
  obtain ⟨v', hv', hw⟩ := bind_eq_ok.mp hw
  obtain ⟨w', hw', hw⟩ := bind_eq_ok.mp hw
  obtain ⟨c, rfl, hlogc, hrc, hpc, htc⟩ := ha.pow hra hx hv'
  obtain ⟨d, rfl, hlogd, hrd, hpd, htd⟩ := ha.pow hra hy hw'
  obtain ⟨n, hn, rfl⟩ := map_eq_ok.mp hw
  obtain ⟨hlogn, htn⟩ := hlogc.mul hlogd hn
  have hlen : c.components = d.components := by
    rw [components_of_powered hpc, components_of_powered hpd]
  refine strictEquals_of_parts ?_ ?_ hlogm.uncorrected hlogn.uncorrected
  · rw [(parts_of_mul hn).1, ← hlen, spread_components, hlen, spread_components, hpm, hpc, hpd,
      powered_add]
  · rw [htm, htn, htc, htd, mul_add]

theorem pow_mul_agree (hx : x.den < s.maxPowDenominator) (hy : y.den < s.maxPowDenominator)
    (hmul : (x * y).den < s.maxPowDenominator) :
    Agree s (Value.powNumber s (.exact a) (.ratio (x * y))) (do
      let u ← Value.powNumber s (.exact a) (.ratio x)
      Value.powNumber s u (.ratio y)) := by
  intro v hv w hw
  obtain ⟨m, rfl, hlogm, hrm, hpm, htm⟩ := ha.pow hra hmul hv
  obtain ⟨w', hw', hw⟩ := bind_eq_ok.mp hw
  obtain ⟨c, rfl, hlogc, hrc, hpc, htc⟩ := ha.pow hra hx hw'
  obtain ⟨n, rfl, hlogn, hrn, hpn, htn⟩ := hlogc.pow hrc hy hw
  refine strictEquals_of_parts ?_ ?_ hlogm.uncorrected hlogn.uncorrected
  · rw [hpm, hpn, hpc, powered_powered]
  · rw [htm, htn, htc, mul_assoc]

theorem mul_pow_agree (hb : b.Logarithmic) (hrb : b.residual = 1)
    (hx : x.den < s.maxPowDenominator) :
    Agree s (do Value.powNumber s (← Value.mul s (.exact a) (.exact b)) (.ratio x)) (do
      let u ← Value.powNumber s (.exact a) (.ratio x)
      let v ← Value.powNumber s (.exact b) (.ratio x)
      Value.mul s u v) := by
  intro v hv w hw
  obtain ⟨v', hv', hv⟩ := bind_eq_ok.mp hv
  obtain ⟨ab, hab, rfl⟩ := map_eq_ok.mp hv'
  obtain ⟨hlogab, htab⟩ := ha.mul hb hab
  obtain ⟨m, rfl, hlogm, hrm, hpm, htm⟩ := hlogab.pow (residual_of_mul hra hrb hab) hx hv
  obtain ⟨v', hv', hw⟩ := bind_eq_ok.mp hw
  obtain ⟨w', hw', hw⟩ := bind_eq_ok.mp hw
  obtain ⟨c, rfl, hlogc, hrc, hpc, htc⟩ := ha.pow hra hx hv'
  obtain ⟨d, rfl, hlogd, hrd, hpd, htd⟩ := hb.pow hrb hx hw'
  obtain ⟨n, hn, rfl⟩ := map_eq_ok.mp hw
  obtain ⟨hlogn, htn⟩ := hlogc.mul hlogd hn
  have hcomponents : n.components = ab.components := by
    rw [(parts_of_mul hn).2.1, (parts_of_mul hab).2.1, components_of_powered hpc,
      components_of_powered hpd]
  -- scaling the exponents commutes with the growth of the bases, as no residual is split
  obtain ⟨hreacha, hreachb⟩ := Reaches.of_mul hab
  refine strictEquals_of_parts ?_ ?_ hlogm.uncorrected hlogn.uncorrected
  · rw [hpm, parts_of_mul_nonzero ha.nonzero hb.nonzero hab,
      parts_of_mul_nonzero hlogc.nonzero hlogd.nonzero hn, hcomponents, hpc, hpd,
      hreacha.spread_powered hra, hreachb.spread_powered hrb, powered_combined]
  · rw [htm, htn, htab, htc, htd, add_mul]

end

theorem Logarithmic.powerLaws (ha : a.Logarithmic) (hb : b.Logarithmic) (hra : a.residual = 1)
    (hrb : b.residual = 1) {x y : ℚ} (hx : x.den < s.maxPowDenominator)
    (hy : y.den < s.maxPowDenominator) (hadd : (x + y).den < s.maxPowDenominator)
    (hmul : (x * y).den < s.maxPowDenominator) : PowerLaws s a b x y where
  pow_add := pow_add_agree ha hra hx hy hadd
  pow_mul := pow_mul_agree ha hra hx hy hmul
  mul_pow := mul_pow_agree ha hra hb hrb hx

/-- One over different numbers of primes, which compares unless the table has too few of them. -/
theorem strictEquals_ones {k : Nat} (hm : IsVector s m (List.replicate k 0))
    (hu : IsVector s u (List.replicate count 0)) :
    m.strictEquals s u = if count = k ∨ max count k ≤ tableSize then .ok true
      else .error .tableExhausted := by
  have hlenm : m.components = k := hm.components.trans List.length_replicate
  have hlenu : u.components = count := hu.components.trans List.length_replicate
  have hpm : m.parts = neutral m.components := hlenm ▸ hm.parts_eq
  have hpu : u.parts = neutral u.components := hlenu ▸ hu.parts_eq
  split
  · next h =>
    obtain rfl | hmax := h
    · exact strictEquals_of_parts (by rw [hpm, hpu, hlenm, hlenu]) (hm.time.trans hu.time.symm)
        hm.uncorrected hu.uncorrected
    · have hspread : ∀ {n : Monzo}, n.components ≤ max count k → n.parts = neutral n.components →
          spread (max m.components u.components) n.parts = neutral (max count k) := by
        intro n hle hn
        rw [hlenm, hlenu, max_comm k count]
        exact Reaches.spread_neutral ⟨hle, .inl hmax⟩ hn
      refine strictEquals_of_spread (by omega) (by omega) hm.bounded hu.bounded
        (hm.time.trans hu.time.symm) hm.uncorrected hu.uncorrected ?_
      rw [hspread (by omega) hpm, hspread (by omega) hpu]
  · next h =>
    obtain ⟨hne, htable⟩ := not_or.mp h
    rcases lt_or_gt_of_ne hne with hlt | hgt
    · have hwide : m.widen s u.components = .ok m := by rw [widen, if_neg (by omega)]
      rw [Monzo.strictEquals, align, hwide, widen_of_lt (by omega) (by omega)]
      rfl
    · rw [Monzo.strictEquals, align, widen_of_lt (by omega) (by omega)]
      rfl

theorem mul_one_agree (ha : a.Logarithmic) (count : Nat) :
    Agree s (do Value.mul s (.exact a) (← one s count)) (.ok (.exact a)) := by
  intro v hv w hw
  obtain ⟨w', hw', hv⟩ := bind_eq_ok.mp hv
  obtain ⟨u, hu, rfl⟩ := map_eq_ok.mp hw'
  obtain ⟨m, hm, rfl⟩ := map_eq_ok.mp hv
  cases hw
  exact strictEquals_of_mul_unity ha hu hm

theorem one_mul_agree (ha : a.Logarithmic) (count : Nat) :
    Agree s (do Value.mul s (← one s count) (.exact a)) (.ok (.exact a)) := by
  intro v hv w hw
  obtain ⟨w', hw', hv⟩ := bind_eq_ok.mp hv
  obtain ⟨u, hu, rfl⟩ := map_eq_ok.mp hw'
  obtain ⟨m, hm, rfl⟩ := map_eq_ok.mp hv
  cases hw
  exact strictEquals_of_unity_mul ha hu hm

/-- A product with the reciprocal is one over the primes of the value. -/
theorem isVector_of_mul_inverse (ha : a.Logarithmic) {v : Value}
    (h : (Value.inverse s (.exact a) >>= Value.mul s (.exact a)) = .ok v) :
    ∃ m : Monzo, v = .exact m ∧ IsVector s m (List.replicate a.components 0) := by
  obtain ⟨w, hw, hv⟩ := bind_eq_ok.mp h
  obtain ⟨a', rfl, hloga', hpa', hta'⟩ := ha.inverse hw
  obtain ⟨m, hm, rfl⟩ := map_eq_ok.mp hv
  obtain ⟨hlogm, htm⟩ := ha.mul hloga' hm
  have hlen := components_of_inverted hpa'
  have hparts : m.parts = neutral a.components := by
    rw [(parts_of_mul hm).1, hlen, spread_components, ← hlen, spread_components, hpa',
      combined_inverted (p := a.parts) ha.nonzero, hlen]
    rfl
  exact ⟨m, rfl, by rw [htm, hta', add_neg_cancel], congrArg Prod.fst hparts,
    congrArg Prod.snd hparts, hlogm.uncorrected, (parts_of_mul hm).2.2.2.2⟩

theorem Logarithmic.groupLaws (ha : a.Logarithmic) (hb : b.Logarithmic) (hc : c.Logarithmic) :
    GroupLaws s a b c where
  mul_comm := mul_comm_agree ha hb
  mul_assoc := mul_assoc_agree ha hb hc
  mul_one := mul_one_agree ha
  one_mul := one_mul_agree ha
  mul_inverse v h := by
    obtain ⟨m, rfl, hvector⟩ := isVector_of_mul_inverse ha h
    refine ⟨m, rfl, hvector.isUnity_iff.mpr fun e => List.eq_of_mem_replicate, ?_⟩
    intro count u hu
    exact strictEquals_ones hvector (unity_spec hu).2.2.2.2
  div_eq_mul_inverse := div_agree ha hb

/-- The values that are not zero and carry no real correction form an abelian group under products,
and those among them without a residual a rational vector space under powers. -/
theorem vectorSpace (s : Settings) :
    (∀ a b c : Monzo, a.Logarithmic → b.Logarithmic → c.Logarithmic → GroupLaws s a b c) ∧
      ∀ a b : Monzo, a.Logarithmic → b.Logarithmic → a.residual = 1 → b.residual = 1 →
        ∀ x y : ℚ, x.den < s.maxPowDenominator → y.den < s.maxPowDenominator →
          (x + y).den < s.maxPowDenominator → (x * y).den < s.maxPowDenominator →
            PowerLaws s a b x y :=
  ⟨fun _ _ _ ha hb hc => ha.groupLaws hb hc,
    fun _ _ ha hb hra hrb _ _ hx hy hadd hmul => ha.powerLaws hb hra hrb hx hy hadd hmul⟩

/-- A product of ratios whose residuals share primes with the larger bases, and powers of a
frequency: both sides return, and they agree. -/
theorem vectorSpace_of_five :
    let five : Monzo := { exps := [0, 0], residual := 5 }
    let third : Monzo := { exps := [-2, 0, 1] }
    let tone : Monzo := { exps := [-3], residual := 9 }
    let pitch : Monzo := { time := -1, exps := [1 / 2, -1 / 3] }
    let root : Monzo := { exps := [0, 0, 1 / 5] }
    (do Value.mul {} (← Value.mul {} (.exact five) (.exact third)) (.exact tone)).isOk ∧
      (do Value.mul {} (.exact five) (← Value.mul {} (.exact third) (.exact tone))).isOk ∧
      GroupLaws {} five third tone ∧
      (Value.powNumber {} (.exact pitch) (.ratio (2 / 3 + -3 / 4))).isOk ∧
      PowerLaws {} pitch root (2 / 3) (-3 / 4) := by
  intro five third tone pitch root
  have hfive : five.Logarithmic := ⟨by decide, zero_beq_zero⟩
  have hthird : third.Logarithmic := ⟨one_ne_zero, zero_beq_zero⟩
  have htone : tone.Logarithmic := ⟨by decide, zero_beq_zero⟩
  have hpitch : pitch.Logarithmic := ⟨one_ne_zero, zero_beq_zero⟩
  have hroot : root.Logarithmic := ⟨one_ne_zero, zero_beq_zero⟩
  refine ⟨by decide +kernel, by decide +kernel, (vectorSpace {}).1 _ _ _ hfive hthird htone,
    by decide +kernel, (vectorSpace {}).2 _ _ hpitch hroot rfl rfl _ _ ?_ ?_ ?_ ?_⟩
  all_goals decide +kernel

end Intonation.Monzo
