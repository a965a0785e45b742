import Intonation.Monzo.Arithmetic
import Intonation.Value.Order
import Intonation.Proofs.Monzo.Vector

/-!
# Values over more primes

Growing the basis of a value factors its residual further. What a value is over many primes does
not depend on how its basis grew on the way there, and it tells products, quotients and strict
equality without a look at the basis of either operand.

## Main definitions

* `Monzo.parts`: the exponents and the residual of a value
* `Monzo.spread`: the same over more primes
* `Monzo.combined`: exponents added and residuals multiplied

## Main statements

* `spread_spread`: growing on the way makes no difference
* `spread_combined`: products over more primes
* `spread_of_mul`, `spread_of_div`: products and dividends over more primes
* `strictEquals_of_spread`: values alike over more primes are strictly equal
-/

namespace Intonation.Monzo
open Double Intonation.Prime

variable {s : Settings} {a b m n : Monzo} {es fs : List ℚ} {count : Nat}

/-! ## Whole exponents added to others -/

theorem addExponents_nil (es : List ℚ) : addExponents es [] = es := by cases es <;> rfl

theorem addExponents_nil_left (ns : List Int) : addExponents [] ns = wholes ns := by
  induction ns with
  | nil => rfl
  | cons n ns ih => rw [addExponents, ih]; rfl

/-- Whole exponents added in turn are added at once. -/
theorem addExponents_addExponents (es : List ℚ) {ns ks : List Int} (h : ns.length ≤ ks.length) :
    addExponents (addExponents es ns) ks =
      addExponents es ((ns ++ List.replicate (ks.length - ns.length) 0).zipWith (· + ·) ks) := by
  induction ns generalizing es ks with
  | nil =>
    have hzero : ∀ ks : List Int, (List.replicate ks.length 0).zipWith (· + ·) ks = ks := by
      intro ks
      induction ks with
      | nil => rfl
      | cons k ks ih =>
        rw [List.length_cons, List.replicate_succ, List.zipWith_cons_cons, ih, zero_add]
    rw [addExponents_nil, List.nil_append, List.length_nil, Nat.sub_zero, hzero]
  | cons n ns ih =>
    cases ks with
    | nil => simp at h
    | cons k ks =>
      have hrest := Nat.le_of_succ_le_succ h
      rw [List.cons_append, List.zipWith_cons_cons, List.length_cons, List.length_cons,
        Nat.succ_sub_succ]
      cases es with
      | nil =>
        rw [addExponents, addExponents, addExponents, ih [] hrest]
        push_cast
        rfl
      | cons e es =>
        rw [addExponents, addExponents, addExponents, ih es hrest]
        push_cast
        rw [add_assoc]

theorem addExponents_zipWith {es fs : List ℚ} {ns ks : List Int} (h : es.length = fs.length)
    (h' : ns.length = ks.length) : addExponents (es.zipWith (· + ·) fs) (ns.zipWith (· + ·) ks) =
      (addExponents es ns).zipWith (· + ·) (addExponents fs ks) := by
  induction es generalizing fs ns ks with
  | nil =>
    obtain rfl := List.length_eq_zero_iff.mp h.symm
    rw [List.zipWith_nil_left, addExponents_nil_left, addExponents_nil_left, addExponents_nil_left]
    exact (wholes_zipWith _ _ (fun x y => by push_cast; rfl) ns ks).symm
  | cons e es ih =>
    cases fs with
    | nil => simp at h
    | cons f fs =>
      cases ns with
      | nil =>
        obtain rfl := List.length_eq_zero_iff.mp h'.symm
        simp [addExponents_nil]
      | cons n ns =>
        cases ks with
        | nil => simp at h'
        | cons k ks =>
          rw [List.zipWith_cons_cons, List.zipWith_cons_cons, addExponents, addExponents,
            addExponents, List.zipWith_cons_cons, ih (Nat.succ.inj h) (Nat.succ.inj h')]
          push_cast
          congr 1
          ring

/-! ## Splitting products -/

theorem residual_split_ne_zero_iff {primes : List Nat} (h : Distinct primes) {q : ℚ} :
    (split primes q).2 ≠ 0 ↔ q ≠ 0 := by
  obtain ⟨-, -, hprod⟩ := split_spec h q
  conv_rhs => rw [← hprod]
  rw [mul_ne_zero_iff, and_iff_left (powerProduct_pos h _).ne']

theorem split_mul {primes : List Nat} (h : Distinct primes) {q r : ℚ} (hq : q ≠ 0) (hr : r ≠ 0) :
    split primes (q * r) = ((split primes q).1.zipWith (· + ·) (split primes r).1,
      (split primes q).2 * (split primes r).2) := by
  obtain ⟨hlenq, hfreeq, hprodq⟩ := split_spec h q
  obtain ⟨hlenr, hfreer, hprodr⟩ := split_spec h r
  have hq0 := (residual_split_ne_zero_iff h).mpr hq
  have hr0 := (residual_split_ne_zero_iff h).mpr hr
  refine split_eq_of_eq_mul h ?_ (mul_ne_zero hq0 hr0) (.mul h hfreeq hfreer) ?_
  · rw [List.length_zipWith, hlenq, hlenr, min_self]
  · rw [powerProduct_zipWith_add h _ _ (hlenq.trans hlenr.symm)]
    conv_lhs => rw [← hprodq, ← hprodr]
    ring

/-- Splitting in turn is splitting at once over the longer row of primes. -/
theorem split_split {primes : List Nat} (h : Distinct primes) {q : ℚ} (hq : q ≠ 0) (k : Nat) :
    split primes q =
      (((split (primes.take k) q).1 ++ List.replicate
          ((split primes (split (primes.take k) q).2).1.length - (split (primes.take k) q).1.length)
          0).zipWith (· + ·) (split primes (split (primes.take k) q).2).1,
        (split primes (split (primes.take k) q).2).2) := by
  obtain ⟨hlen, -, hprod⟩ := split_spec (h.take k) q
  have hr := (residual_split_ne_zero_iff (h.take k)).mpr hq
  obtain ⟨hlen', hfree', hprod'⟩ := split_spec h (split (primes.take k) q).2
  have hr' := (residual_split_ne_zero_iff h).mpr hr
  generalize split (primes.take k) q = first at *
  generalize split primes first.2 = second at *
  have hle : first.1.length ≤ primes.length := by
    rw [hlen, List.length_take]
    omega
  have hpadded : (first.1 ++ List.replicate (second.1.length - first.1.length) 0).length =
      second.1.length := by
    rw [List.length_append, List.length_replicate]
    omega
  have hzeros : powerProduct primes (first.1 ++
      List.replicate (second.1.length - first.1.length) 0) = powerProduct (primes.take k) first.1 := by
    rw [powerProduct_append_zeros, powerProduct_take]
    rw [hlen, List.length_take]
    exact min_le_left _ _
  refine split_eq_of_eq_mul h ?_ hr' hfree' ?_
  · rw [List.length_zipWith, hpadded, min_self, hlen']
  · rw [powerProduct_zipWith_add h _ _ hpadded, hzeros, ← hprod, ← hprod']
    ring

/-! ## Parts over more primes -/

/-- The exponents and the residual of a value. -/
def parts (m : Monzo) : List ℚ × ℚ := (m.exps, m.residual)

/-- Exponents and a residual over at least the given number of primes. -/
def spread (count : Nat) (p : List ℚ × ℚ) : List ℚ × ℚ :=
  if p.1.length < count then
    (addExponents p.1 (split (table.take count) p.2).1, (split (table.take count) p.2).2)
  else p

/-- Exponents added and residuals multiplied. -/
def combined (p q : List ℚ × ℚ) : List ℚ × ℚ := (p.1.zipWith (· + ·) q.1, p.2 * q.2)

variable {p q : List ℚ × ℚ} {k : Nat}

theorem combined_comm (p q : List ℚ × ℚ) : combined p q = combined q p := by
  rw [combined, combined, List.zipWith_comm_of_comm add_comm, mul_comm]

theorem spread_of_le (h : count ≤ p.1.length) : spread count p = p := by
  rw [spread, if_neg (not_lt.mpr h)]

theorem length_take_table (h : count ≤ tableSize) : (table.take count).length = count := by
  rw [List.length_take, length_table]
  exact min_eq_left h

theorem length_spread (h : count ≤ tableSize) (p : List ℚ × ℚ) :
    (spread count p).1.length = max p.1.length count := by
  by_cases hlt : p.1.length < count
  · obtain ⟨hlen, -, -⟩ := split_spec (distinct_table.take count) p.2
    rw [spread, if_pos hlt, length_addExponents, hlen, length_take_table h]
  · rw [spread_of_le (not_lt.mp hlt)]
    omega

theorem spread_ne_zero_iff : (spread count p).2 ≠ 0 ↔ p.2 ≠ 0 := by
  by_cases hlt : p.1.length < count
  · rw [spread, if_pos hlt]
    exact residual_split_ne_zero_iff (distinct_table.take count)
  · rw [spread_of_le (not_lt.mp hlt)]

theorem spread_max (count : Nat) (p : List ℚ × ℚ) :
    spread (max p.1.length count) p = spread count p := by
  rcases le_total count p.1.length with hle | hle
  · rw [max_eq_left hle, spread_of_le le_rfl, spread_of_le hle]
  · rw [max_eq_right hle]

/-- Growing on the way makes no difference. -/
theorem spread_spread (hk : k ≤ count) (hcount : count ≤ tableSize) (hp : p.2 ≠ 0) :
    spread count (spread k p) = spread count p := by
  by_cases hlt : p.1.length < k
  · have hlen := length_spread (hk.trans hcount) p
    rcases hk.eq_or_lt with rfl | hkc
    · exact spread_of_le (by omega)
    · -- the residual is split over the first primes, and what is left over all of them
      have hsplit := split_split (distinct_table.take count) hp k
      rw [List.take_take, min_eq_left hk] at hsplit
      obtain ⟨hone, -, -⟩ := split_spec (distinct_table.take k) p.2
      obtain ⟨htwo, -, -⟩ := split_spec (distinct_table.take count) (split (table.take k) p.2).2
      rw [length_take_table (hk.trans hcount)] at hone
      rw [length_take_table hcount] at htwo
      have hsum := @addExponents_addExponents p.1 (split (table.take k) p.2).1
        (split (table.take count) (split (table.take k) p.2).2).1 (by omega)
      rw [spread, if_pos (by omega), spread, if_pos hlt, spread, if_pos (by omega), hsum]
      rw [hsplit]
  · rw [spread_of_le (p := p) (not_lt.mp hlt)]

/-- What a product is over more primes. -/
theorem spread_combined (hlen : p.1.length = q.1.length) (hp : p.2 ≠ 0) (hq : q.2 ≠ 0) :
    spread count (combined p q) = combined (spread count p) (spread count q) := by
  have hcomb : (combined p q).1.length = p.1.length := by
    rw [combined, List.length_zipWith, ← hlen, min_self]
  by_cases hlt : p.1.length < count
  · have hsplit := split_mul (distinct_table.take count) hp hq
    obtain ⟨hone, -, -⟩ := split_spec (distinct_table.take count) p.2
    obtain ⟨htwo, -, -⟩ := split_spec (distinct_table.take count) q.2
    rw [spread, if_pos (by omega), spread, if_pos hlt, spread, if_pos (by omega), combined, combined,
      hsplit, addExponents_zipWith hlen (hone.trans htwo.symm)]
  · have hle := not_lt.mp hlt
    rw [spread_of_le (p := p) hle, spread_of_le (p := q) (hle.trans_eq hlen),
      spread_of_le (hle.trans_eq hcomb.symm)]

theorem spread_one (hcount : count ≤ tableSize) (es : List ℚ) :
    spread count (es, 1) = (padded count es, 1) := by
  by_cases hlt : es.length < count
  · have hsplit : split (table.take count) 1 = (List.replicate count 0, 1) :=
      IsVector.factor_one (factor_eq_ok_iff.mpr ⟨hcount, rfl⟩)
    rw [spread, if_pos hlt, hsplit, IsVector.addExponents_replicate_zero]
  · have hle := not_lt.mp hlt
    rw [spread_of_le hle, padded_of_le hle]

/-! ## Arithmetic over more primes -/

theorem IsVector.parts_eq (h : IsVector s m es) : m.parts = (es, 1) := by
  rw [parts, h.exps, h.residual]

theorem parts_of_widen (h : m.widen s count = .ok n) :
    n.parts = spread count m.parts ∧ n.time = m.time ∧ n.cents = m.cents := by
  by_cases hlt : m.components < count
  · rw [widen, if_pos hlt] at h
    obtain ⟨parts, hparts, h⟩ := bind_eq_ok.mp h
    obtain ⟨-, rfl⟩ := factor_eq_ok_iff.mp hparts
    obtain ⟨-, rfl⟩ := checked_eq_ok_iff.mp h
    refine ⟨?_, rfl, rfl⟩
    rw [spread, if_pos (by exact hlt)]
    rfl
  · rw [widen, if_neg hlt] at h
    cases h
    exact ⟨(spread_of_le (not_lt.mp hlt)).symm, rfl, rfl⟩

/-- A value can be widened when what it is over more primes is within the bounds. -/
theorem exists_widen (hcount : count ≤ tableSize) (hm : m.cents == 0) (hn : n.cents == 0)
    (hbounded : boundsFault? s n = none) (hparts : n.parts = spread count m.parts) :
    ∃ w, m.widen s count = .ok w := by
  by_cases hlt : m.components < count
  · rw [widen, if_pos hlt]
    rw [spread, if_pos (by exact hlt)] at hparts
    refine ⟨_, bind_eq_ok.mpr ⟨_, factor_eq_ok_iff.mpr ⟨hcount, rfl⟩, checked_eq_ok_iff.mpr
      ⟨bounded_congr (congrArg Prod.fst hparts) (congrArg Prod.snd hparts) (.of_beq_zero hn hm)
        hbounded, rfl⟩⟩⟩
  · exact ⟨m, by rw [widen, if_neg hlt]⟩

theorem parts_of_align {c d : Monzo} (h : align s a b = .ok (c, d)) :
    c.parts = spread b.components a.parts ∧ d.parts = spread a.components b.parts ∧
      c.time = a.time ∧ d.time = b.time ∧ c.cents = a.cents ∧ d.cents = b.cents := by
  obtain ⟨a', ha, h⟩ := bind_eq_ok.mp h
  obtain ⟨b', hb, h⟩ := bind_eq_ok.mp h
  cases h
  obtain ⟨hc, hctime, hccents⟩ := parts_of_widen ha
  obtain ⟨hd, hdtime, hdcents⟩ := parts_of_widen hb
  exact ⟨hc, hd, hctime, hdtime, hccents, hdcents⟩

theorem components_of_widen (h : m.widen s count = .ok n) :
    n.components = max m.components count := by
  by_cases hlt : m.components < count
  · have hparts := (parts_of_widen h).1
    rw [widen, if_pos hlt] at h
    obtain ⟨parts, hfactor, -⟩ := bind_eq_ok.mp h
    have hlen := length_spread (factor_eq_ok_iff.mp hfactor).1 m.parts
    rw [← hparts] at hlen
    exact hlen
  · rw [widen, if_neg hlt] at h
    cases h
    exact (max_eq_left (not_lt.mp hlt)).symm

/-- Resizing to more primes is growing the basis. -/
theorem resize_eq_widen (h : m.components < count) (s : Settings) :
    m.resize s (max count m.components) = m.widen s count := by
  rw [max_eq_left h.le, resize, if_neg h.not_gt, if_pos h, widen, if_pos h]

/-- Resizing to the primes at hand only looks at the bounds. -/
theorem resize_eq_checked (h : count ≤ m.components) (s : Settings) :
    m.resize s (max count m.components) = checked s m := by
  rw [max_eq_right h, resize, if_neg (lt_irrefl _), if_neg (lt_irrefl _)]

theorem bounded_of_widen (hm : boundsFault? s m = none) (h : m.widen s count = .ok n) :
    boundsFault? s n = none := by
  unfold widen at h
  split at h
  · obtain ⟨parts, -, h⟩ := bind_eq_ok.mp h
    obtain ⟨hbounded, rfl⟩ := checked_eq_ok_iff.mp h
    exact hbounded
  · cases h
    exact hm

theorem components_of_align {c d : Monzo} (h : align s a b = .ok (c, d)) :
    c.components = max a.components b.components ∧
      d.components = max a.components b.components := by
  obtain ⟨a', ha, h⟩ := bind_eq_ok.mp h
  obtain ⟨b', hb, h⟩ := bind_eq_ok.mp h
  cases h
  exact ⟨components_of_widen ha, (components_of_widen hb).trans (max_comm _ _)⟩

theorem parts_of_mul (h : a.mul s b = .ok m) :
    m.parts = combined (spread b.components a.parts) (spread a.components b.parts) ∧
      m.components = max a.components b.components ∧ m.time = a.time + b.time ∧
      m.cents = a.cents + b.cents ∧ boundsFault? s m = none := by
  obtain ⟨⟨c, d⟩, halign, h⟩ := bind_eq_ok.mp h
  obtain ⟨hc, hd, hctime, hdtime, hccents, hdcents⟩ := parts_of_align halign
  obtain ⟨hlenc, hlend⟩ := components_of_align halign
  obtain ⟨hbounded, rfl⟩ := checked_eq_ok_iff.mp h
  rw [← hc, ← hd, ← hctime, ← hdtime, ← hccents, ← hdcents]
  refine ⟨rfl, ?_, rfl, rfl, hbounded⟩
  show (c.exps.zipWith (· + ·) d.exps).length = _
  rw [List.length_zipWith]
  exact (congrArg₂ min hlenc hlend).trans (min_self _)

theorem residual_ne_zero_of_div (h : a.div s b = .ok (.exact m)) : b.residual ≠ 0 := by
  intro h0
  rw [Monzo.div, if_pos h0] at h
  cases h

theorem exists_align_of_div (h : a.div s b = .ok (.exact m)) :
    ∃ c d, align s a b = .ok (c, d) ∧ checked s {
      time := c.time - d.time
      exps := c.exps.zipWith (· - ·) d.exps
      residual := c.residual / d.residual
      cents := c.cents - d.cents } = .ok m := by
  rw [Monzo.div, if_neg (residual_ne_zero_of_div h)] at h
  obtain ⟨m', hm, heq⟩ := map_eq_ok.mp h
  cases heq
  obtain ⟨⟨c, d⟩, halign, hm⟩ := bind_eq_ok.mp hm
  exact ⟨c, d, halign, hm⟩

/-- The dividend is the product of an exact quotient and the divisor. -/
theorem parts_of_div (h : a.div s b = .ok (.exact m)) :
    spread b.components a.parts = combined m.parts (spread a.components b.parts) ∧
      m.components = max a.components b.components ∧ m.time = a.time - b.time ∧
      m.cents = a.cents - b.cents ∧ boundsFault? s m = none := by
  have hres := residual_ne_zero_of_div h
  obtain ⟨c, d, halign, hm⟩ := exists_align_of_div h
  obtain ⟨hc, hd, hctime, hdtime, hccents, hdcents⟩ := parts_of_align halign
  obtain ⟨hlenc, hlend⟩ := components_of_align halign
  obtain ⟨hbounded, rfl⟩ := checked_eq_ok_iff.mp hm
  have hresd : d.residual ≠ 0 := by
    rw [show d.residual = _ from congrArg Prod.snd hd]
    exact spread_ne_zero_iff.mpr hres
  rw [← hc, ← hd, ← hctime, ← hdtime, ← hccents, ← hdcents]
  refine ⟨Prod.ext ?_ (div_mul_cancel₀ c.residual hresd).symm, ?_, rfl, rfl, hbounded⟩
  · show c.exps = (c.exps.zipWith (· - ·) d.exps).zipWith (· + ·) d.exps
    unfold components at hlenc hlend
    apply List.ext_getElem
    · rw [List.length_zipWith, List.length_zipWith]
      omega
    · intro k _ _
      rw [List.getElem_zipWith, List.getElem_zipWith, sub_add_cancel]
  · show (c.exps.zipWith (· - ·) d.exps).length = _
    rw [List.length_zipWith]
    exact (congrArg₂ min hlenc hlend).trans (min_self _)

section
variable (hcount : count ≤ tableSize) (hca : a.components ≤ count) (hcb : b.components ≤ count)
include hcount hca hcb

/-- A product over more primes. -/
theorem spread_of_mul (h : a.mul s b = .ok m) (ha : a.residual ≠ 0) (hb : b.residual ≠ 0) :
    spread count m.parts = combined (spread count a.parts) (spread count b.parts) := by
  obtain ⟨hparts, -⟩ := parts_of_mul h
  have hlen : (spread b.components a.parts).1.length =
      (spread a.components b.parts).1.length := by
    rw [length_spread (hcb.trans hcount), length_spread (hca.trans hcount)]
    exact max_comm _ _
  rw [hparts, spread_combined hlen (spread_ne_zero_iff.mpr ha) (spread_ne_zero_iff.mpr hb),
    spread_spread hcb hcount ha, spread_spread hca hcount hb]

/-- A dividend over more primes. -/
theorem spread_of_div (h : a.div s b = .ok (.exact m)) (ha : a.residual ≠ 0)
    (hm : m.residual ≠ 0) :
    spread count a.parts = combined (spread count m.parts) (spread count b.parts) := by
  have hb := residual_ne_zero_of_div h
  obtain ⟨hparts, hcomponents, -⟩ := parts_of_div h
  have hlen : m.parts.1.length = (spread a.components b.parts).1.length := by
    rw [length_spread (hca.trans hcount), max_comm]
    exact hcomponents
  rw [← spread_spread hcb hcount ha, hparts, spread_combined hlen hm (spread_ne_zero_iff.mpr hb),
    spread_spread hca hcount hb]

end

/-- Values alike over the primes of both of them are strictly equal. -/
theorem strictEquals_of_spread (ha : a.components ≤ tableSize) (hb : b.components ≤ tableSize)
    (hbounda : boundsFault? s a = none) (hboundb : boundsFault? s b = none)
    (htime : a.time = b.time) (hca : a.cents == 0) (hcb : b.cents == 0)
    (h : spread (max a.components b.components) a.parts =
      spread (max a.components b.components) b.parts) :
    a.strictEquals s b = .ok true := by
  have hspread : spread b.components a.parts = spread a.components b.parts := by
    have hmaxa := spread_max b.components a.parts
    have hmaxb := spread_max a.components b.parts
    rw [max_comm] at hmaxb
    exact hmaxa.symm.trans (h.trans hmaxb)
  -- the narrower value grows to the parts of the wider one, which are within the bounds
  have hwidea : ∃ c, a.widen s b.components = .ok c := by
    rcases le_total b.components a.components with hle | hle
    · exact ⟨a, by rw [widen, if_neg (not_lt.mpr hle)]⟩
    · refine exists_widen hb hca hcb hboundb ?_
      rw [hspread, spread_of_le hle]
  have hwideb : ∃ d, b.widen s a.components = .ok d := by
    rcases le_total a.components b.components with hle | hle
    · exact ⟨b, by rw [widen, if_neg (not_lt.mpr hle)]⟩
    · refine exists_widen ha hcb hca hbounda ?_
      rw [← hspread, spread_of_le hle]
  obtain ⟨c, hc⟩ := hwidea
  obtain ⟨d, hd⟩ := hwideb
  obtain ⟨hpc, htc, hcc⟩ := parts_of_widen hc
  obtain ⟨hpd, htd, hcd⟩ := parts_of_widen hd
  have hparts : c.parts = d.parts := by rw [hpc, hpd, hspread]
  refine bind_eq_ok.mpr ⟨(c, d), bind_eq_ok.mpr ⟨c, hc, bind_eq_ok.mpr ⟨d, hd, rfl⟩⟩, ?_⟩
  have hexps : c.exps = d.exps := congrArg Prod.fst hparts
  have hres : c.residual = d.residual := congrArg Prod.snd hparts
  have hcents : c.cents == d.cents := by
    rw [hcc, hcd]
    exact beq_of_beq_zero hca hcb
  simp [htc, htd, htime, hexps, hres, hcents]

end Intonation.Monzo
