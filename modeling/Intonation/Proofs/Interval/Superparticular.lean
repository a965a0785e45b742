import Intonation.Proofs.Interval.Sizes
import Intonation.Proofs.Monzo.Group

/-!
# Ranges of square superparticulars

The ratio of a range of square superparticulars is a closed form in its two ends. It is the product
of the ratios in the range, because neighbouring ratios cancel all but the ends of what they share.
Lowered values are canonical, and products of canonical values are as well, so the cancellation
needs no second look once values are factored: a canonical value is determined by its ratio.

A range can be within the bounds in force while some of its members are not.

## Main definitions

* `Literal.superparticularSum`: the members of a range, lowered and added from the left
* `Interval.IsSuperparticular`: an interval as these literals and their sums are
* `Memoized.Computes`: a computation that looks no commas up

## Main statements

* `Literal.superparticularRatio_append`: two adjacent ranges
* `Literal.superparticularRatio_eq_prod`: a range is the product of its members
* `Literal.superparticular_telescopes`: the same for lowered literals and their sums
-/

namespace Intonation

/-! ## Ratios -/

namespace Literal

variable {a b k start stop : Int}

theorem superparticularRatio_none (k : Int) :
    superparticularRatio k none = (k : ℚ) ^ 2 / ((k : ℚ) ^ 2 - 1) := by
  rw [superparticularRatio]
  push_cast
  rw [sq]

/-- A range of one member. -/
theorem superparticularRatio_self (k : Int) :
    superparticularRatio k (some k) = superparticularRatio k none := by
  rw [superparticularRatio, superparticularRatio]
  push_cast
  ring

theorem superparticularRatio_pos (h2 : 2 ≤ start) (hle : start ≤ stop) :
    0 < superparticularRatio start (some stop) := by
  have hstart : (2 : ℚ) ≤ start := by exact_mod_cast h2
  have hstop : (start : ℚ) ≤ stop := by exact_mod_cast hle
  rw [superparticularRatio]
  push_cast
  exact div_pos (by nlinarith) (by nlinarith)

/-- Two adjacent ranges cancel the end of the first and the start of the second. -/
theorem superparticularRatio_append (h2 : 2 ≤ start) (ha : start ≤ k) (hb : k < stop) :
    superparticularRatio start (some k) * superparticularRatio (k + 1) (some stop) =
      superparticularRatio start (some stop) := by
  have hstart : (start : ℚ) - 1 ≠ 0 := by
    have h : (2 : ℚ) ≤ start := by exact_mod_cast h2
    linarith
  have hk : (2 : ℚ) ≤ k := by exact_mod_cast h2.trans ha
  have hstop : (k : ℚ) < stop := by exact_mod_cast hb
  have hk0 : (k : ℚ) ≠ 0 := by linarith
  have hk1 : (k : ℚ) + 1 ≠ 0 := by linarith
  have hstop1 : (stop : ℚ) + 1 ≠ 0 := by linarith
  simp only [superparticularRatio]
  push_cast
  rw [add_sub_cancel_right]
  field_simp

/-- One more member at the end of a range. -/
theorem superparticularRatio_succ (h2 : 2 ≤ start) (hle : start ≤ stop) :
    superparticularRatio start (some stop) * superparticularRatio (stop + 1) none =
      superparticularRatio start (some (stop + 1)) := by
  rw [← superparticularRatio_self]
  exact superparticularRatio_append h2 hle (lt_add_one stop)

theorem superparticularRatio_eq_prod (h2 : 2 ≤ start) (hle : start ≤ stop) :
    superparticularRatio start (some stop) =
      ∏ k ∈ Finset.Icc start stop, (k : ℚ) ^ 2 / ((k : ℚ) ^ 2 - 1) := by
  induction stop, hle using Int.leInduction with
  | base =>
    rw [Finset.Icc_self, Finset.prod_singleton, superparticularRatio_self,
      superparticularRatio_none]
  | succ stop hle ih =>
    rw [← Finset.insert_Icc_right_eq_Icc_add_one (by omega), Finset.prod_insert (by simp), mul_comm,
      ← ih, ← superparticularRatio_none, superparticularRatio_succ h2 hle]

end Literal

/-! ## Intervals of ratios -/

/-- A logarithmic interval of a ratio over the tracked primes, whose literal, if it has one, is of
square superparticulars. -/
structure Interval.IsSuperparticular (s : Settings) (r : ℚ) (i : Interval) : Prop where
  logarithmic : i.domain = .logarithmic
  literal : ∀ l ∈ i.literal, ∃ start stop, l = .superparticular start stop
  value : ∃ m : Monzo, i.value = .exact m ∧ m.Canonical s ∧ m.time = 0 ∧ m.ratio = r

namespace Interval.IsSuperparticular

variable {s : Settings} {p q r : ℚ} {i j : Interval}

theorem toRatio (h : i.IsSuperparticular s r) : i.value.toRatio = .ok r := by
  obtain ⟨m, hvalue, hm, -, hratio⟩ := h.value
  rw [hvalue]
  exact hm.toRatio.trans (congrArg _ hratio)

/-- A canonical value is determined by its ratio, so intervals of one ratio are strictly equal,
under any settings. -/
theorem strictEquals (hi : i.IsSuperparticular s r) (hj : j.IsSuperparticular s r) (h0 : r ≠ 0)
    (u : Settings) : i.strictEquals u j = .ok true := by
  obtain ⟨m, hvalue, hm, htime, rfl⟩ := hi.value
  obtain ⟨n, hvalue', hn, htime', hratio⟩ := hj.value
  obtain ⟨hexps, hres⟩ := hm.components_eq hn hratio.symm h0
  rw [Interval.strictEquals, if_pos (hi.logarithmic.trans hj.logarithmic.symm), hvalue, hvalue']
  exact Monzo.strictEquals_of_parts (Prod.ext hexps hres) (htime.trans htime'.symm)
    hm.uncorrected hn.uncorrected

theorem combine_literals (hi : i.IsSuperparticular s p) (hj : j.IsSuperparticular s q) :
    Literal.combine Literal.add i.literal j.literal = .ok none := by
  cases hl : i.literal with
  | none => rfl
  | some l =>
    cases hk : j.literal with
    | none => rfl
    | some k =>
      obtain ⟨a, b, rfl⟩ := hi.literal l hl
      obtain ⟨c, d, rfl⟩ := hj.literal k hk
      rfl

/-- Sums have no literal of their own, and none is found for their values. -/
theorem orRespelled (hi : i.IsSuperparticular s p) (v : Value) :
    Literal.orRespelled v i.literal j.literal none = none := by
  cases hl : i.literal with
  | none => rfl
  | some l =>
    cases j.literal with
    | none => rfl
    | some k =>
      obtain ⟨a, b, rfl⟩ := hi.literal l hl
      exact ite_self none

/-- The sum of two intervals is the interval of the product of their ratios, unless it
overflows. -/
theorem barring_add (hi : i.IsSuperparticular s p) (hj : j.IsSuperparticular s q) :
    Barring False (·.IsSuperparticular s (p * q)) (i.add s j) := by
  obtain ⟨m, hvalue, hm, htime, rfl⟩ := hi.value
  obtain ⟨n, hvalue', hn, htime', rfl⟩ := hj.value
  have hratio : ∀ {a : Monzo}, a.Canonical s → a.IsRatio False a.time a.ratio := fun ha =>
    .of_toRatio ha.toRatio (Monzo.vanish_of_bounded ha.bounded)
      (.inl (ha.components_length.trans_le ha.tracked))
  have hmul : Barring False (fun v => ∃ c : Monzo, v = .exact c ∧ c.Canonical s ∧ c.time = 0 ∧
      c.ratio = m.ratio * n.ratio) (i.value.mul s j.value) := by
    rw [hvalue, hvalue']
    refine (((hratio hm).mul (hratio hn)).and_of_ok fun c hc => hm.mul hn hc).map fun c hc => ?_
    obtain ⟨-, hcanonical, hproduct, hzero⟩ := hc
    exact ⟨c, rfl, hcanonical, by rw [hzero, htime, htime', add_zero], hproduct⟩
  simp only [Interval.add, requireDomains, hi.logarithmic, hj.logarithmic, if_true, reduceCtorEq,
    if_false, hi.combine_literals hj]
  refine hmul.bind fun v hv => ?_
  rw [hi.orRespelled v]
  exact ⟨rfl, (fun l hl => by cases hl), hv⟩

end Interval.IsSuperparticular

/-! ## Lowered literals -/

/-- A bound in force is exceeded, by a value or by a literal, or the range of doubles is. -/
def Fault.Exceeds (f : Fault) : Prop :=
  f = .literalOutOfRange ∨ f.family = .overflow ∨ f = .tooLarge

theorem Barring.exceeds {α : Type} {P : α → Prop} {x : Except Fault α} (h : Barring False P x) :
    Meets P Fault.Exceeds x := by
  cases x with
  | ok a => exact h
  | error f => exact .inr (h.imp_right fun h => h.resolve_right fun h => h.2)

/-- A computation that looks no commas up, and returns as it is meant to or fails in a way that it
may. -/
def Memoized.Computes {α : Type} (P : α → Prop) (F : Fault → Prop) (x : Memoized α) : Prop :=
  ∃ r, x = Memoized.ofExcept r ∧ Meets P F r

/-- The quantity of an interval of a ratio. -/
def Quantity.IsSuperparticular (s : Settings) (r : ℚ) (q : Quantity) : Prop :=
  ∃ i : Interval, q = .interval i ∧ i.IsSuperparticular s r

namespace Literal

variable {s : Settings} {context : Option Context} {c : Context} {p q : ℚ}
  {x y : Memoized Quantity} {a start stop : Int} {b : Option Int}

/-- The square superparticulars of a range, lowered and added from the left. -/
def superparticularSum (s : Settings) (context : Option Context) (start : Int) :
    Nat → Memoized Quantity
  | 0 => (superparticular start none).lower s context
  | n + 1 => SizeExpr.evalBoth (Quantity.add s) (superparticularSum s context start n)
      ((superparticular (start + (n + 1 : Nat)) none).lower s context)

theorem computes_lower (hs : s.Valid) (hc : Context.given s context = .ok c) :
    ((superparticular a b).lower s context).Computes
      (·.IsSuperparticular s (superparticularRatio a b)) Fault.Exceeds := by
  have hvalue : Barring False _ (Monzo.ofRatio s (superparticularRatio a b)) :=
    Monzo.IsRatio.ofRatioOver (.inl hs.components_le) _
  have hlower : (superparticular a b).lower s context = Memoized.ofExcept
      (((Monzo.ofRatio s (superparticularRatio a b)).mapError loweringFault).map fun m =>
        .interval { value := .exact m, domain := .logarithmic,
                    literal := some (superparticular a b) }) := by
    rw [lower_eq, hc]
    show (do
      let c ← Memoized.ofExcept (.ok c)
      tryCatch (do
        let value ← Memoized.ofExcept
          ((Monzo.ofRatio s (superparticularRatio a b)).map Value.exact)
        return Quantity.interval
          { value, domain := .logarithmic, literal := some (superparticular a b) })
        fun fault => throw (loweringFault fault)) = _
    cases Monzo.ofRatio s (superparticularRatio a b) <;> rfl
  refine ⟨_, hlower, ?_⟩
  cases hm : Monzo.ofRatio s (superparticularRatio a b) with
  | ok m =>
    obtain ⟨hcanonical, hratio, htime⟩ := Monzo.canonical_ofRatio hm
    exact ⟨_, rfl, rfl, fun l hl => ⟨a, b, (Option.some.inj hl).symm⟩, m, rfl, hcanonical, htime,
      hratio⟩
  | error f =>
    have hexceeds : f.Exceeds := by
      rw [hm] at hvalue
      exact hvalue.exceeds
    show Fault.Exceeds (loweringFault f)
    unfold loweringFault
    split
    · exact .inl rfl
    · exact hexceeds

theorem computes_add (hx : x.Computes (·.IsSuperparticular s p) Fault.Exceeds)
    (hy : y.Computes (·.IsSuperparticular s q) Fault.Exceeds) :
    (SizeExpr.evalBoth (Quantity.add s) x y).Computes (·.IsSuperparticular s (p * q))
      Fault.Exceeds := by
  obtain ⟨x, rfl, hx⟩ := hx
  obtain ⟨y, rfl, hy⟩ := hy
  refine ⟨x >>= fun q => y >>= fun r => q.add s r, ?_, ?_⟩
  · cases x with
    | error f => rfl
    | ok q => cases y <;> rfl
  · refine hx.bind fun q hq => hy.bind fun r hr => ?_
    obtain ⟨i, rfl, hi⟩ := hq
    obtain ⟨j, rfl, hj⟩ := hr
    exact (hi.barring_add hj).exceeds.map fun k hk => ⟨k, rfl, hk⟩

/-- The sum over a range from its first member on, by induction on the number of members. -/
theorem computes_superparticularSum (hs : s.Valid) (hc : Context.given s context = .ok c)
    (h2 : 2 ≤ start) (n : Nat) : (superparticularSum s context start n).Computes
      (·.IsSuperparticular s (superparticularRatio start (some (start + n)))) Fault.Exceeds := by
  induction n with
  | zero =>
    rw [Nat.cast_zero, add_zero, superparticularRatio_self]
    exact computes_lower hs hc
  | succ n ih =>
    have hsum := computes_add ih (computes_lower (a := start + n + 1) (b := none) hs hc)
    rw [superparticularRatio_succ h2 (by omega)] at hsum
    rw [superparticularSum, Nat.cast_succ, ← add_assoc]
    exact hsum

/-- Whenever a range of square superparticulars lowers, its ratio is the product of the ratios in
the range. The logarithmic sum of its lowered members is strictly equal to it, unless a member or a
partial sum exceeds the bounds; so is the sum of the two parts into which the range is split
anywhere, unless a part or the sum exceeds them. -/
theorem superparticular_telescopes (hs : s.Valid) (h2 : 2 ≤ start) (hle : start ≤ stop)
    {memo memo' : CommaMemo} {q : Quantity}
    (hq : ((superparticular start (some stop)).lower s context).Returns memo q memo') :
    (∃ i, q = .interval i ∧ i.value.toRatio =
      .ok (∏ k ∈ Finset.Icc start stop, (k : ℚ) ^ 2 / ((k : ℚ) ^ 2 - 1))) ∧
    (∀ u : Settings, (superparticularSum s context start (stop - start).toNat).Computes
      (fun r => q.strictEquals u r = .ok true) Fault.Exceeds) ∧
    ∀ (u : Settings) (k : Int), start ≤ k → k < stop →
      (SizeExpr.evalBoth (Quantity.add s) ((superparticular start (some k)).lower s context)
        ((superparticular (k + 1) (some stop)).lower s context)).Computes
        (fun r => q.strictEquals u r = .ok true) Fault.Exceeds := by
  obtain ⟨c, -, hc, -, -⟩ := (lower_returns_iff rfl).mp hq
  obtain ⟨i, rfl, hi⟩ : q.IsSuperparticular s (superparticularRatio start (some stop)) := by
    obtain ⟨x, hx, hmeets⟩ := computes_lower (a := start) (b := some stop) hs hc
    rw [hx] at hq
    obtain ⟨rfl, -⟩ := Memoized.returns_ofExcept.mp hq
    exact hmeets
  have hequal : ∀ {x : Memoized Quantity},
      x.Computes (·.IsSuperparticular s (superparticularRatio start (some stop))) Fault.Exceeds →
        ∀ u : Settings, x.Computes (fun r => (Quantity.interval i).strictEquals u r = .ok true)
          Fault.Exceeds := by
    rintro x ⟨r, rfl, hr⟩ u
    refine ⟨r, rfl, hr.mono ?_⟩
    rintro _ ⟨j, rfl, hj⟩
    exact hi.strictEquals hj (superparticularRatio_pos h2 hle).ne' u
  refine ⟨⟨i, rfl, ?_⟩, hequal ?_, fun u k ha hb => hequal ?_ u⟩
  · rw [← superparticularRatio_eq_prod h2 hle]
    exact hi.toRatio
  · have hsum := computes_superparticularSum hs hc h2 (stop - start).toNat
    rwa [Int.toNat_of_nonneg (by omega), add_sub_cancel] at hsum
  · have hsum := computes_add (computes_lower (a := start) (b := some k) hs hc)
      (computes_lower (a := k + 1) (b := some stop) hs hc)
    rwa [superparticularRatio_append h2 ha hb] at hsum

/-- The range from five to eight, and the sum of its four members. -/
theorem superparticular_telescopes_five :
    ∃ i r, (∃ memo, ((superparticular 5 (some 8)).lower {} none).Returns [] (.interval i) memo) ∧
      i.value.toRatio = .ok (∏ k ∈ Finset.Icc (5 : Int) 8, (k : ℚ) ^ 2 / ((k : ℚ) ^ 2 - 1)) ∧
      ((superparticularSum {} none 5 3).run.run []).1 = .ok r ∧
      (Quantity.interval i).strictEquals {} r = .ok true := by
  have hrange : (((superparticular 5 (some 8)).lower {} none).run.run []).1.isOk := by
    decide +kernel
  have hsum : ((superparticularSum {} none 5 3).run.run []).1.isOk := by decide +kernel
  obtain ⟨q, hq⟩ := exists_of_isOk hrange
  obtain ⟨r, hr⟩ := exists_of_isOk hsum
  have hreturns : ((superparticular 5 (some 8)).lower {} none).Returns [] q _ := Prod.ext hq rfl
  obtain ⟨⟨i, rfl, hratio⟩, htelescopes, -⟩ :=
    superparticular_telescopes Settings.valid_default (by decide) (by decide) hreturns
  obtain ⟨x, hx, hmeets⟩ := htelescopes {}
  refine ⟨i, r, ⟨_, hreturns⟩, hratio, hr, ?_⟩
  rw [show ((8 : Int) - 5).toNat = 3 from rfl] at hx
  rw [hx] at hr
  change x = .ok r at hr
  rwa [hr] at hmeets

/-- When no exponent may exceed three octaves, three halves is in range as the product of four
thirds and nine eighths, and nine eighths is not. -/
theorem superparticular_out_of_range :
    let s : Settings := { absurdExponent := 3 }
    let outcome : Memoized Quantity → Except Fault Unit := fun x => (x.run.run []).1.map fun _ => ()
    outcome ((superparticular 2 (some 3)).lower s none) = .ok () ∧
      outcome ((superparticular 2 (some 2)).lower s none) = .ok () ∧
      outcome ((superparticular 3 (some 3)).lower s none) = .error .literalOutOfRange ∧
      outcome (SizeExpr.evalBoth (Quantity.add s) ((superparticular 2 (some 2)).lower s none)
        ((superparticular 3 (some 3)).lower s none)) = .error .literalOutOfRange := by
  decide +kernel

end Literal

end Intonation
