import Intonation.Monzo.Reduction
import Intonation.Proofs.Monzo.CommonBase
import Intonation.Proofs.Ratio.Remainder
import Mathlib.Analysis.SpecialFunctions.Log.Base

/-!
# Reduction by a period

A reduction divides by a whole power of the period. Which one it has to be is told by the logarithm
in the period: the largest power that does not exceed the value, or under `ceiling` the largest one
below it. An exact logarithm tells it without an error. Where there is none, the quotient of two
sizes in doubles stands in for it, and the reduction lands in range exactly when the quotient has
the whole part of the logarithm. A value so close to a power of the period that doubles cannot tell
them apart need not land in range.

## Main definitions

* `InPeriod`: the range of a reduction
* `periodsIn`: the number of whole periods in a ratio
* `Discerns`: a reduction that finds that number
* `IsPositive`: a value within the bounds that denotes a positive ratio

## Main statements

* `inPeriod_iff`: the power of the period that leaves a ratio in range
* `IsPositive.reduce`: a reduction divides by some power, and by the right one when it is discerned
* `log_of_beyond`: no exact logarithm, by a prime beyond the table
* `reduce_ratio`: the range of a reduction, and of a second one
-/

namespace Intonation.Monzo
open Double Intonation.Prime

variable {s : Settings} {m n r : Monzo} {a p x : ℚ} {i j : Nat} {k : Int} {ceiling wide : Bool}

/-! ## Whole periods -/

/-- From one up to below the period, or under `ceiling` from above one up to the period. -/
def InPeriod (p : ℚ) (ceiling : Bool) (q : ℚ) : Prop :=
  if ceiling then 1 < q ∧ q ≤ p else 1 ≤ q ∧ q < p

/-- The number of whole periods in a ratio, or one less for a power of the period under
`ceiling`. -/
noncomputable def periodsIn (p : ℚ) (ceiling : Bool) (a : ℚ) : Int :=
  if ceiling then ⌈Real.logb p a⌉ - 1 else ⌊Real.logb p a⌋

theorem logb_div_zpow (hp : 1 < p) (ha : 0 < a) (k : Int) :
    Real.logb p ((a / p ^ k : ℚ) : ℝ) = Real.logb p a - k := by
  have hp' : (1 : ℝ) < p := by exact_mod_cast hp
  have ha' : (0 : ℝ) < a := by exact_mod_cast ha
  have hp0 : (0 : ℝ) < p := one_pos.trans hp'
  push_cast
  rw [Real.logb_div ha'.ne' (zpow_ne_zero k hp0.ne'), ← Real.rpow_intCast,
    Real.logb_rpow hp0 hp'.ne']

/-- The power of the period that leaves a ratio in range is that of its whole periods. -/
theorem inPeriod_iff (hp : 1 < p) (ha : 0 < a) :
    InPeriod p ceiling (a / p ^ k) ↔ k = periodsIn p ceiling a := by
  have hp' : (1 : ℝ) < p := by exact_mod_cast hp
  have hq : 0 < a / p ^ k := div_pos ha (zpow_pos (by linarith) k)
  have hq' : (0 : ℝ) < ((a / p ^ k : ℚ) : ℝ) := by exact_mod_cast hq
  have hlog := logb_div_zpow hp ha k
  have hone_le : 1 ≤ a / p ^ k ↔ (k : ℝ) ≤ Real.logb p a := by
    rw [← Rat.cast_le (K := ℝ), Rat.cast_one, ← Real.logb_nonneg_iff hp' hq', hlog, sub_nonneg]
  have hone_lt : 1 < a / p ^ k ↔ (k : ℝ) < Real.logb p a := by
    rw [← Rat.cast_lt (K := ℝ), Rat.cast_one, ← Real.logb_pos_iff hp' hq', hlog, sub_pos]
  have hle_p : a / p ^ k ≤ p ↔ Real.logb p a ≤ k + 1 := by
    have hone := Real.logb_le_iff_le_rpow (y := 1) hp' hq'
    rw [Real.rpow_one] at hone
    rw [← Rat.cast_le (K := ℝ), ← hone, hlog, sub_le_iff_le_add']
  have hlt_p : a / p ^ k < p ↔ Real.logb p a < k + 1 := by
    have hone := Real.logb_lt_iff_lt_rpow (y := 1) hp' hq'
    rw [Real.rpow_one] at hone
    rw [← Rat.cast_lt (K := ℝ), ← hone, hlog, sub_lt_iff_lt_add']
  cases ceiling with
  | false =>
    rw [InPeriod, periodsIn, if_neg (by decide), if_neg (by decide), hone_le, hlt_p, eq_comm,
      Int.floor_eq_iff]
  | true =>
    rw [InPeriod, periodsIn, if_pos rfl, if_pos rfl, hone_lt, hle_p, eq_sub_iff_add_eq, eq_comm,
      Int.ceil_eq_iff]
    push_cast
    rw [add_sub_cancel_right]

/-- An exact logarithm has the whole periods. -/
theorem wholePeriods_eq_periodsIn (hp : 1 < p) (ha : 0 < a) (h : a ^ x.den = p ^ x.num) :
    Ratio.wholePeriods x ceiling = periodsIn p ceiling a := by
  have hp' : (1 : ℝ) < p := by exact_mod_cast hp
  have ha' : (0 : ℝ) < a := by exact_mod_cast ha
  have hlog : Real.logb p a = x := by
    have hpow : (a : ℝ) ^ x.den = (p : ℝ) ^ x.num := by exact_mod_cast h
    have hlogs := congrArg (Real.logb p) hpow
    rw [← Real.rpow_natCast, ← Real.rpow_intCast, Real.logb_rpow_eq_mul_logb_of_pos ha',
      Real.logb_rpow (one_pos.trans hp') hp'.ne'] at hlogs
    have hden : (x.den : ℝ) ≠ 0 := by exact_mod_cast x.den_ne_zero
    have hx : (x : ℝ) = x.num / x.den := Rat.cast_def x
    rw [hx, eq_div_iff hden, mul_comm, hlogs]
  rw [periodsIn, hlog, Rat.floor_cast, Rat.ceil_cast]
  cases ceiling with
  | false => rfl
  | true =>
    show x.ceil - 1 = ⌈x⌉ - 1
    rw [Rat.ceil_eq_neg_floor_neg]
    rfl

/-! ## Reductions -/

/-- The logarithm is exact, or the quotient of the two sizes has the whole periods of the ratio. -/
def Discerns (s : Settings) (m n : Monzo) (ceiling : Bool) (p a : ℚ) : Prop :=
  (∃ v, m.log s n = .ok (.exact v)) ∨
    Approx.wholePeriods (m.totalCents / n.totalCents) ceiling = periodsIn p ceiling a

/-- A value with a positive residual is its own magnitude. -/
theorem abs_eq_self (h : boundsFault? s m = none) (hpos : 0 < m.residual) : m.abs s = .ok m := by
  have hres : m.residual.abs = m.residual := by rw [rat_abs_eq, abs_of_pos hpos]
  refine checked_eq_ok_iff.mpr ⟨?_, ?_⟩ <;> rw [hres]
  exact h

/-- A value within the bounds that denotes a positive ratio. -/
structure IsPositive (s : Settings) (m : Monzo) (a : ℚ) : Prop where
  bounded : boundsFault? s m = none
  isRatio : m.IsRatio True 0 a
  pos : 0 < a

namespace IsPositive

theorem of_ofRatioOver (ha : 0 < a) (h : ofRatioOver s i a = .ok m) : m.IsPositive s a := by
  have hratio : Barring True (·.IsRatio True 0 a) (ofRatioOver s i a) :=
    IsRatio.ofRatioOver (.inr trivial) a
  rw [h] at hratio
  exact ⟨bounded_ofRatioOver h, hratio, ha⟩

theorem residual_pos (h : m.IsPositive s a) : 0 < m.residual := by
  obtain ⟨ns, -, -, hratio⟩ := h.isRatio.whole
  have hpos := h.pos
  rw [← hratio] at hpos
  exact pos_of_mul_pos_left hpos (powerProduct_pos distinct_table ns).le

theorem abs (h : m.IsPositive s a) : m.abs s = .ok m := abs_eq_self h.bounded h.residual_pos

/-- A reduction of positive ratios goes by the exact logarithm, and by the quotient of the sizes
where there is none. -/
theorem reduce_eq (hm : m.IsPositive s a) (hn : n.IsPositive s p) :
    m.reduce s n ceiling =
      if n.totalCents == 0 || !n.totalCents.isFinite then .error .unisonReduction
      else m.log s n >>= fun v => match v with
        | .exact v => v.toRatio >>= fun x => divPower s m n (Ratio.wholePeriods x ceiling)
        | .real _ =>
          if (m.totalCents / n.totalCents).isFinite then
            divPower s m n (Approx.wholePeriods (m.totalCents / n.totalCents) ceiling)
          else (m.toApprox.reduce s n.toApprox ceiling).map .real := by
  have hscalar : ∀ {m : Monzo} {a : ℚ}, m.IsPositive s a → m.isScalar = true :=
    fun h => decide_eq_true h.isRatio.time
  have hperiods : periods? s m n = m.log s n >>= fun v => match v with
      | .exact x => x.toRatio.map some
      | .real _ => .ok none := by
    rw [periods?, hscalar hm, hscalar hn, hm.abs, hn.abs]
    rfl
  unfold Monzo.reduce
  rw [hperiods]
  refine if_congr Iff.rfl rfl ?_
  cases m.log s n with
  | error f => rfl
  | ok v =>
    cases v with
    | real l => rfl
    | exact v =>
      show (v.toRatio.map some >>= _) = v.toRatio >>= _
      cases v.toRatio <;> rfl

/-- Dividing by a power of the period. -/
theorem of_divPower (hs : s.Valid) (hm : m.IsPositive s a) (hn : n.IsPositive s p)
    (h : divPower s m n k = .ok (.exact r)) : r.IsPositive s (a / p ^ k) := by
  obtain ⟨power, hpower, h⟩ := bind_eq_ok.mp h
  have hpow := IsRatio.powRatio hs hn.isRatio k fun h0 => absurd h0 hn.pos.ne'
  rw [hpower] at hpow
  obtain ⟨w, rfl, hw⟩ := hpow
  have hpos : 0 < p ^ k := zpow_pos hn.pos k
  have hdiv : Barring True (IsRatio.Exactly True (0 - 0 * k) (a / p ^ k)) (m.div s w) :=
    hm.isRatio.div hw hpos.ne'
  have h' : m.div s w = .ok (.exact r) := h
  rw [h'] at hdiv
  obtain ⟨r', heq, hr⟩ := hdiv
  cases heq
  rw [zero_mul, sub_zero] at hr
  exact ⟨(parts_of_div h').2.2.2.2, hr, div_pos hm.pos hpos⟩

/-- What the search finds for the magnitudes of positive ratios is an exponent between them. -/
theorem pow_of_solve {c d : Monzo} (hm : m.IsPositive s a) (hn : n.IsPositive s p)
    (hc : c.parts = m.magnitude) (hd : d.parts = n.magnitude) (h : solve s c d = .ok (some x)) :
    a ^ x.den = p ^ x.num := by
  have hpower := powerOver_of_solve h
  rw [hc, hd] at hpower
  have hpow := pow_ratio_of_powerOver hm.isRatio.isFractional hn.isRatio.isFractional hpower
  rwa [hm.isRatio.ratio_eq, hn.isRatio.ratio_eq, abs_of_pos hm.pos, abs_of_pos hn.pos] at hpow

/-- An exact logarithm of positive ratios is an exponent between them. -/
theorem pow_of_log {v : Monzo} (hm : m.IsPositive s a) (hn : n.IsPositive s p)
    (h : m.log s n = .ok (.exact v)) : ∃ x, v.toRatio = .ok x ∧ a ^ x.den = p ^ x.num := by
  have hscalar : ∀ {m : Monzo} {a : ℚ}, m.IsPositive s a → m.isScalar = true :=
    fun h => decide_eq_true h.isRatio.time
  obtain ⟨x, c, d, hv, hsolve, hc, hd, -⟩ := exists_solve_of_log (hscalar hm) (hscalar hn)
    hm.isRatio.uncorrected hn.isRatio.uncorrected h
  obtain ⟨hcanonical, hratio, -⟩ := canonical_ofRatio hv
  exact ⟨x, hcanonical.toRatio.trans (by rw [hratio]), hm.pow_of_solve hn hc hd hsolve⟩

/-- A reduction divides by some power of the period, and by the power of the whole periods exactly
when it discerns their number. -/
theorem reduce (hs : s.Valid) (hm : m.IsPositive s a) (hn : n.IsPositive s p) (hp : 1 < p)
    (h : m.reduce s n ceiling = .ok (.exact r)) :
    ∃ k, r.IsPositive s (a / p ^ k) ∧ (k = periodsIn p ceiling a ↔ Discerns s m n ceiling p a) := by
  rw [hm.reduce_eq hn] at h
  split at h
  · cases h
  · obtain ⟨v, hlog, h⟩ := bind_eq_ok.mp h
    cases v with
    | exact v =>
      obtain ⟨x, hx, hpow⟩ := hm.pow_of_log hn hlog
      obtain ⟨y, hy, h⟩ := bind_eq_ok.mp h
      obtain rfl : x = y := Except.ok.inj (hx.symm.trans hy)
      refine ⟨_, of_divPower hs hm hn h, iff_of_true ?_ (.inl ⟨v, hlog⟩)⟩
      exact wholePeriods_eq_periodsIn hp hm.pos hpow
    | real l =>
      dsimp only at h
      split at h
      · refine ⟨_, of_divPower hs hm hn h, ⟨.inr, fun hdiscerns => ?_⟩⟩
        refine hdiscerns.resolve_left ?_
        rintro ⟨v, hv⟩
        rw [hlog] at hv
        cases hv
      · obtain ⟨_, -, h⟩ := map_eq_ok.mp h
        cases h

end IsPositive

/-- A ratio with a prime beyond the table is no power of one without it. Over one basis its
logarithm is real. -/
theorem log_of_beyond {q : Nat} (hq : q.Prime) (hbeyond : q ∉ table) (ha : 0 < a) (hp : 0 < p)
    (hvala : padicValRat q a ≠ 0) (hvalp : padicValRat q p = 0) (hm : ofRatioOver s i a = .ok m)
    (hn : ofRatioOver s i p = .ok n) : ∃ l, m.log s n = .ok (.real l) := by
  have hma : m.IsPositive s a := .of_ofRatioOver ha hm
  have hnp : n.IsPositive s p := .of_ofRatioOver hp hn
  have hwiden : ∀ {m : Monzo} {a : ℚ}, 0 < a → ofRatioOver s i a = .ok m →
      m.widen s i = .ok m := by
    intro m a ha hm
    rw [widen, if_neg (parts_ofRatioOver ha.ne' hm).2.2.2.2.not_lt]
  have hmagnitude : ∀ {m : Monzo} {a : ℚ}, m.IsPositive s a → m.parts = m.magnitude := by
    intro m a h
    rw [magnitude, abs_of_pos h.residual_pos]
    rfl
  obtain ⟨solution, hsolution⟩ : ∃ solution, solve s m n = .ok solution := by
    rw [solve_eq_widen, commonBasis_of_beyond ha hp hm hn hq hbeyond (.inl hvala), max_self]
    cases hquotient : exponentQuotient? m.exps n.exps <;>
      exact ⟨_, bind_eq_ok.mpr ⟨m, hwiden ha hm, bind_eq_ok.mpr ⟨n, hwiden hp hn, by rw [hquotient]⟩⟩⟩
  rw [log_eq_solve ha hp hm hn, hsolution]
  cases solution with
  | none => exact realLog_returns hma.isRatio.time hnp.isRatio.time
  | some x =>
    have hpow := hma.pow_of_solve hnp (hmagnitude hma) (hmagnitude hnp) hsolution
    exact absurd (padicValRat_eq_zero_of_pow_eq hq hpow hvalp) hvala

/-- The reduction of a positive ratio by a period divides it by a whole power of the period. It
lands in range exactly when it discerns the number of whole periods, by an exact logarithm or by the
quotient of the sizes. From within the range, reducing again changes nothing exactly when the second
reduction discerns that there are no periods left. -/
theorem reduce_ratio (hs : s.Valid) (ha : 0 < a) (hp : 1 < p) (hm : ofRatioOver s i a = .ok m)
    (hn : ofRatioOver s j p = .ok n) (h : m.reduce s n ceiling = .ok (.exact r)) :
    ∃ k : Int, r.toRatio = .ok (a / p ^ k) ∧
      (InPeriod p ceiling (a / p ^ k) ↔ Discerns s m n ceiling p a) ∧
      (InPeriod p ceiling (a / p ^ k) → ∀ v, r.reduce s n ceiling = .ok (.exact v) →
        (v.toRatio = r.toRatio ↔ Discerns s r n ceiling p (a / p ^ k))) := by
  have hpn : n.IsPositive s p := .of_ofRatioOver (one_pos.trans hp) hn
  obtain ⟨k, hr, hk⟩ := (IsPositive.of_ofRatioOver ha hm).reduce hs hpn hp h
  refine ⟨k, hr.isRatio.toRatio, (inPeriod_iff hp ha).trans hk, fun hin v hv => ?_⟩
  obtain ⟨l, hvr, hl⟩ := hr.reduce hs hpn hp hv
  -- a ratio in range has no whole periods, so that only the zeroth power changes nothing
  have hzero : 0 = periodsIn p ceiling (a / p ^ k) := by
    rw [← inPeriod_iff hp hr.pos, zpow_zero, div_one]
    exact hin
  have hpow : a / p ^ k / p ^ l = a / p ^ k ↔ p ^ l = 1 := by
    rw [div_eq_iff (zpow_pos hpn.pos l).ne', eq_comm, mul_eq_left₀ hr.pos.ne']
  rw [← hl, ← hzero, hvr.isRatio.toRatio, hr.isRatio.toRatio, Except.ok.injEq, hpow,
    zpow_eq_one_iff_right₀ hpn.pos.le hp.ne']

/-- Ten over three primes lands in the octave at five fourths, and stays there. -/
theorem reduce_ratio_ten : ∃ m n r, ofRatioOver {} 3 10 = .ok m ∧ ofRatioOver {} 1 2 = .ok n ∧
    m.reduce {} n false = .ok (.exact r) ∧ r.toRatio = .ok (5 / 4) ∧ Discerns {} m n false 2 10 ∧
    ∀ v, r.reduce {} n false = .ok (.exact v) →
      (v.toRatio = r.toRatio ↔ Discerns {} r n false 2 (5 / 4)) := by
  have hok : (ofRatioOver {} 3 10 >>= fun m => ofRatioOver {} 1 2 >>= fun n =>
      m.reduce {} n false).map (fun v => (v.isExact, v.toRatio)) = .ok (true, .ok (5 / 4)) := by
    decide +kernel
  obtain ⟨v, hv, hvalue⟩ := map_eq_ok.mp hok
  obtain ⟨m, hm, hv⟩ := bind_eq_ok.mp hv
  obtain ⟨n, hn, hv⟩ := bind_eq_ok.mp hv
  cases v with
  | real r => cases hvalue
  | exact r =>
    have hr : r.toRatio = .ok (5 / 4) := congrArg Prod.snd hvalue
    obtain ⟨k, hk, hrange, hagain⟩ := reduce_ratio Settings.valid_default (by norm_num)
      (by norm_num) hm hn hv
    have hquotient : 10 / 2 ^ k = (5 / 4 : ℚ) := Except.ok.inj (hk.symm.trans hr)
    rw [hquotient] at hrange hagain
    have hin : InPeriod 2 false (5 / 4) := by norm_num [InPeriod]
    exact ⟨m, n, r, hm, hn, hv, hr, hrange.mp hin, hagain hin⟩

/-- The terms of this ratio, the second of which is the fifth power of 8191, round to one double, so
that its size is that of one. It lies below one and is left where it is, and its reciprocal above
one is moved beyond the octave under `ceiling`. -/
theorem reduce_closeTerms :
    let a : ℚ := 36870975646169341949 / 36870975646169341951
    ∃ n, ofRatio {} 2 = .ok n ∧
      (∃ m r, ofRatio {} a = .ok m ∧ m.reduce {} n false = .ok (.exact r) ∧
        r.toRatio = .ok a ∧ ¬ InPeriod 2 false a) ∧
      ∃ m r, ofRatio {} a⁻¹ = .ok m ∧ m.reduce {} n true = .ok (.exact r) ∧
        r.toRatio = .ok (2 * a⁻¹) ∧ ¬ InPeriod 2 true (2 * a⁻¹) := by
  intro a
  have hprime : Nat.Prime 8191 := by norm_num
  have := Fact.mk hprime
  have hbeyond : 8191 ∉ table := fun hmem => absurd (mem_table.mp hmem).2 (by decide)
  have ha : 0 < a := by norm_num [a]
  have hval : padicValRat 8191 a = -5 := by
    have hnum : padicValInt 8191 a.num = 0 :=
      padicValInt.eq_zero_of_not_dvd (show ¬ (8191 : ℤ) ∣ a.num by decide +kernel)
    have hden : a.den = 8191 ^ 5 := by decide +kernel
    rw [padicValRat_def, hnum, hden, padicValNat.prime_pow]
    rfl
  have hvaltwo : padicValRat 8191 2 = 0 := by
    rw [show (2 : ℚ) = (2 : ℕ) by norm_num, padicValRat.of_nat,
      padicValNat.eq_zero_of_not_dvd (by decide)]
    rfl
  -- neither ratio is a power of two, so that the sizes decide
  have hsizes : ∀ c ∈ [(a, false, a), (a⁻¹, true, 2 * a⁻¹)],
      (ofRatio {} c.1 >>= fun m => ofRatio {} 2 >>= fun n =>
        (divPower {} m n (Approx.wholePeriods (m.totalCents / n.totalCents) c.2.1)).map fun v =>
          (n.totalCents == 0 || !n.totalCents.isFinite, (m.totalCents / n.totalCents).isFinite,
            v.isExact, v.toRatio)) = .ok (false, true, true, .ok c.2.2) := by decide +kernel
  have hreduce : ∀ c ∈ [(a, false, a), (a⁻¹, true, 2 * a⁻¹)], 0 < c.1 →
      padicValRat 8191 c.1 ≠ 0 → ∃ n, ofRatio {} 2 = .ok n ∧
        ∃ m r, ofRatio {} c.1 = .ok m ∧ m.reduce {} n c.2.1 = .ok (.exact r) ∧
          r.toRatio = .ok c.2.2 := by
    intro c hc hpos hne
    obtain ⟨m, hm, hsize⟩ := bind_eq_ok.mp (hsizes c hc)
    obtain ⟨n, hn, hsize⟩ := bind_eq_ok.mp hsize
    obtain ⟨v, hv, hvalue⟩ := map_eq_ok.mp hsize
    simp only [Prod.mk.injEq] at hvalue
    obtain ⟨hperiod, hfinite, hexact, hratio⟩ := hvalue
    obtain ⟨l, hl⟩ := log_of_beyond hprime hbeyond hpos two_pos hne hvaltwo hm hn
    have hreal : m.reduce {} n c.2.1 = .ok v := by
      rw [(IsPositive.of_ofRatioOver hpos hm).reduce_eq (.of_ofRatioOver two_pos hn), hperiod, hl,
        ← hv, if_neg (by decide)]
      exact if_pos hfinite
    cases v with
    | real r => cases hexact
    | exact r => exact ⟨n, hn, m, r, hm, hreal, hratio⟩
  obtain ⟨n, hn, m, r, hm, hr, hratio⟩ := hreduce (a, false, a) (by simp) ha (by simp [hval])
  obtain ⟨n', hn', m', r', hm', hr', hratio'⟩ :=
    hreduce (a⁻¹, true, 2 * a⁻¹) (by simp) (inv_pos.mpr ha) (by simp [padicValRat.inv, hval])
  obtain rfl : n = n' := Except.ok.inj (hn.symm.trans hn')
  exact ⟨n, hn, ⟨m, r, hm, hr, hratio, by norm_num [InPeriod, a]⟩,
    m', r', hm', hr', hratio', by norm_num [InPeriod, a]⟩

end Intonation.Monzo
