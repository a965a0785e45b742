import Intonation.Proofs.Monzo.Twins

/-!
# Measuring values of one ratio

Powers, logarithms, remainders and roundings of twins are twins. Where an operation takes a
branch by a size or by a sign, twins take the same branch.

## Main statements

* `Canonical.checked_pow`: whole powers of canonical values
* `Twins.powRatio`, `Twins.lcm`, `Twins.log`: powers, multiples and logarithms
* `Twins.modulo`, `Twins.reduce`, `Twins.roundTo`, `Twins.pitchRoundTo`: remainders and rounding
* `Twins.lensAdd`, `Twins.lensSub`: harmonic sums
-/

namespace Intonation
open Double

theorem Number.isFinite_of_toDouble {q : ℚ} {x : Float}
    (h : (Number.ratio q).toDouble = .ok x) : x.isFinite := by
  have hx : Double.ofRat? q = some x := by
    simp only [Number.toDouble, Number.toDouble.ofRat] at h
    split at h
    · next y hy =>
      cases h
      exact hy
    · cases h
  exact isFinite_of_ofRat? hx

namespace Monzo

variable {s : Settings} {a a' b b' m : Monzo}

/-! ## Powers -/

theorem Canonical.checked_pow (ha : Canonical s a) {k : Int} {x : Float} (hx : x.isFinite)
    (h : checked s
      { time := a.time * k
        exps := a.exps.map (· * (k : ℚ))
        residual := a.residual ^ k
        cents := a.cents * x } = .ok m) :
    Canonical s m ∧ m.ratio = a.ratio ^ k ∧ m.time = a.time * k := by
  obtain ⟨ns, hlen, hexps⟩ := ha.whole
  have hlen' : (ns.map (· * k)).length = s.numberOfComponents := by rw [List.length_map, hlen]
  have hexps' : a.exps.map (· * (k : ℚ)) = wholes (ns.map (· * k)) := by
    rw [hexps]
    exact wholes_map (· * k) _ (fun x => by push_cast; rfl) ns
  obtain ⟨hm, hratio, htime⟩ := ha.of_checked h (beq_zero_mul ha.uncorrected hx)
    (ha.free.zpow s.distinct_primes k) hlen' hexps'
  refine ⟨hm, ?_, htime⟩
  rw [hratio, ratio_eq_of_wholes hlen hexps, mul_zpow, Prime.powerProduct_map_mul]

namespace Twins

theorem irrationalPow (h : a.Twins s a') (x : Float) :
    Both (Value.Twins s) (a.irrationalPow s x) (a'.irrationalPow s x) := by
  unfold Monzo.irrationalPow
  rw [if_neg (not_not.mpr h.left_time), if_neg (not_not.mpr h.right_time)]
  exact Value.Twins.map_real (by rw [h.toApprox_eq])

/-- Whole powers of twins are twins. -/
theorem powRatio (h : a.Twins s a') (k : Int) :
    Both (Value.Twins s) (a.powRatio s k) (a'.powRatio s k) := by
  have hdouble : Both (fun x y => x = y ∧ x.isFinite) (Number.ratio k).toDouble
      (Number.ratio k).toDouble := .diag fun x hx => ⟨rfl, Number.isFinite_of_toDouble hx⟩
  unfold Monzo.powRatio
  refine .ite Iff.rfl (fun _ => hdouble.bind ?_) fun _ => .ite (by rw [h.residual_eq])
    (fun _ => .error_left) fun _ => ?_
  · rintro x _ ⟨rfl, -⟩
    exact h.irrationalPow x
  · rw [← h.residual_eq, Ratio.pow?_intCast]
    by_cases h0 : a.residual = 0 ∧ k < 0
    · simp only [if_pos h0]
      refine hdouble.bind ?_
      rintro x _ ⟨rfl, -⟩
      rw [if_pos h0.1.le, if_pos h0.1.le]
      exact h.irrationalPow x
    · simp only [if_neg h0]
      refine hdouble.bind ?_
      rintro x _ ⟨rfl, hx⟩
      refine Both.bind (R := Twins s) ?_ fun m n hmn => .ok (.exact hmn)
      intro m hm n hn
      rw [h.residual_eq] at hn
      obtain ⟨hcm, hrm, htm⟩ := h.left.checked_pow hx hm
      obtain ⟨hcn, hrn, htn⟩ := h.right.checked_pow hx hn
      refine ⟨hcm, hcn, by rw [hrm, hrn, h.ratio_eq], ?_, ?_⟩
      · rw [htm, h.left_time, zero_mul]
      · rw [htn, h.right_time, zero_mul]

/-! ## Remainders and multiples -/

theorem modulo (h : a.Twins s a') (h' : b.Twins s b') (ceiling : Bool) :
    Both (Value.Twins s) (a.modulo s b ceiling) (a'.modulo s b' ceiling) := by
  obtain ⟨hu, hu'⟩ := requireUnits_eq "reduce" h h'
  unfold Monzo.modulo
  rw [hu, hu', h.left.isFractional, h'.left.isFractional, h.right.isFractional,
    h'.right.isFractional]
  refine Both.ite Iff.rfl (fun _ => ?_) (fun hfalse => absurd rfl hfalse)
  refine Both.ite (by rw [h'.ratio_eq]) (fun _ => Value.Twins.map_real ?_)
    (fun _ => h.ratioResult h' (by rw [h.ratio_eq, h'.ratio_eq]))
  rw [h.toApprox_eq, h'.toApprox_eq]

end Twins

/-! ## Multiples -/

theorem greatest_intCast (x y : Int) : Ratio.greatest x y = (max x y : Int) := by
  unfold Ratio.greatest
  by_cases h : x < y
  · rw [if_pos (by exact_mod_cast h), max_eq_right h.le]
  · rw [if_neg (by exact_mod_cast h), max_eq_left (not_lt.mp h)]

/-- A common multiple of ratios without the primes is without them. -/
theorem free_lcm {primes : List Nat} (hd : Prime.Distinct primes) {q r : ℚ}
    (hq : Prime.Free primes q) (hr : Prime.Free primes r) :
    Prime.Free primes (Ratio.lcm q r) := by
  unfold Ratio.lcm
  by_cases h0 : q = 0 ∨ r = 0
  · have hnum : q.num.lcm r.num = 0 := by
      rcases h0 with rfl | rfl <;> simp
    rw [hnum, Nat.cast_zero, Rat.zero_mkRat]
    exact Prime.Free.zero _
  · rw [not_or] at h0
    rw [Rat.mkRat_eq_div]
    refine Prime.Free.of_not_dvd hd (fun p hp hdvd => ?_) (fun p hp hdvd => ?_)
    · rcases ((hd.prime p hp).dvd_mul.mp (hdvd.trans (Nat.lcm_dvd_mul _ _))) with h1 | h1
      · exact (hq.not_dvd hd h0.1 hp).1 h1
      · exact (hr.not_dvd hd h0.2 hp).1 h1
    · exact (hq.not_dvd hd h0.1 hp).2 (hdvd.trans (Nat.gcd_dvd_left _ _))

theorem Canonical.lcm (ha : Canonical s a) (hb : Canonical s b) (h : a.lcm s b = .ok m) :
    Canonical s m ∧ m.residual = Ratio.lcm a.residual b.residual ∧
      m.exps = a.exps.zipWith Ratio.greatest b.exps ∧
      m.time = Ratio.greatest a.time b.time := by
  obtain ⟨ns, hlen, hexps⟩ := ha.whole
  obtain ⟨ks, hlenb, hexpsb⟩ := hb.whole
  unfold Monzo.lcm at h
  rw [ha.align hb] at h
  have hlen' : (ns.zipWith max ks).length = s.numberOfComponents := by
    rw [List.length_zipWith, hlen, hlenb, min_self]
  have hexps' : a.exps.zipWith Ratio.greatest b.exps = wholes (ns.zipWith max ks) := by
    rw [hexps, hexpsb]
    exact wholes_zipWith _ _ (fun x y => (greatest_intCast x y).symm) ns ks
  have hcents : Double.greatest a.cents b.cents == 0 := by
    unfold Double.greatest
    split
    · exact hb.uncorrected
    · exact ha.uncorrected
  obtain ⟨hbounded, rfl⟩ := checked_eq_ok_iff.mp h
  exact ⟨⟨ha.tracked, hcents, hbounded, free_lcm s.distinct_primes ha.free hb.free, _, hlen', hexps'⟩,
    rfl, rfl, rfl⟩

namespace Twins

/-- A common multiple with zero is zero, whatever the exponents. -/
theorem lcm (h : a.Twins s a') (h' : b.Twins s b') :
    Both (Twins s) (a.lcm s b) (a'.lcm s b') := by
  intro m hm n hn
  obtain ⟨hcm, hrm, hem, htm⟩ := h.left.lcm h'.left hm
  obtain ⟨hcn, hrn, hen, htn⟩ := h.right.lcm h'.right hn
  have hres : m.residual = n.residual := by rw [hrm, hrn, h.residual_eq, h'.residual_eq]
  refine ⟨hcm, hcn, ?_, ?_, ?_⟩
  · by_cases h0 : a.residual = 0 ∨ b.residual = 0
    · have hzero : m.residual = 0 := by
        rw [hrm, Ratio.lcm]
        rcases h0 with h0 | h0 <;> simp [h0]
      rw [hcm.ratio_eq_zero_iff.mpr hzero, hcn.ratio_eq_zero_iff.mpr (hres ▸ hzero)]
    · rw [not_or] at h0
      have hexps : m.exps = n.exps := by
        rw [hem, hen, (h.components_eq h0.1).1, (h'.components_eq h0.2).1]
      rw [ratio, ratio, hres, hexps]
  · rw [htm, h.left_time, h'.left_time]
    rfl
  · rw [htn, h.right_time, h'.right_time]
    rfl

/-! ## Logarithms -/

/-- The same exponents and residual. -/
def SameVector (a b : Monzo) : Prop := a.exps = b.exps ∧ a.residual = b.residual

theorem grow_same (h : SameVector a b) (count : Nat) :
    Both SameVector (a.grow s count) (b.grow s count) := by
  obtain ⟨hexps, hres⟩ := h
  unfold grow
  rw [hexps, hres]
  refine Both.bind (.diag fun _ _ => rfl) ?_
  rintro parts _ rfl m hm n hn
  obtain ⟨-, rfl⟩ := checked_eq_ok_iff.mp hm
  obtain ⟨-, rfl⟩ := checked_eq_ok_iff.mp hn
  exact ⟨rfl, rfl⟩

theorem SameVector.components_eq (h : SameVector a b) : a.components = b.components := by
  rw [components, components, h.1]

theorem widen_same (h : SameVector a b) (count : Nat) :
    Both SameVector (a.widen s count) (b.widen s count) := by
  unfold widen
  exact .ite (by rw [h.components_eq]) (fun _ => grow_same h count) fun _ => .ok h

theorem align_same (h : SameVector a a') (h' : SameVector b b') :
    Both (fun x y => SameVector x.1 y.1 ∧ SameVector x.2 y.2) (align s a b) (align s a' b') := by
  unfold align
  rw [h.components_eq, h'.components_eq]
  exact (widen_same h _).bind fun x y hxy => (widen_same h' _).bind fun z w hzw => .ok ⟨hxy, hzw⟩

/-- The exact exponent depends on the exponents and the residuals alone. -/
theorem solve_same (h : SameVector a a') (h' : SameVector b b') :
    Both (fun x y => x = y) (solve s a b) (solve s a' b') := by
  have hlimit : commonLimit a b = commonLimit a' b' := by
    unfold commonLimit
    rw [h.2, h'.2]
  have hresize : ∀ {c : Monzo}, c.components < commonLimit a' b' →
      c.resize s (commonLimit a' b') = c.grow s (commonLimit a' b') := by
    intro c hlt
    unfold resize
    rw [if_neg (by omega), if_pos hlt]
  unfold solve
  simp only [hlimit, h.components_eq, h'.components_eq]
  refine .ite Iff.rfl (fun hlt => ?_) fun _ => (align_same h h').bind ?_
  rw [hresize (by rw [h.components_eq]; omega), hresize (by omega)]
  refine (grow_same h _).bind fun c c' hc => (align_same hc h').bind ?_
  -- grown or not, only the exponents and the residuals are read
  all_goals
    rintro p p' ⟨⟨hx, hxr⟩, hy, hyr⟩
    rw [hx, hxr, hy, hyr]
    exact .diag fun _ _ => rfl

theorem sameVector (h : a.Twins s b) (h0 : a.residual ≠ 0) : SameVector a b := h.components_eq h0

theorem neg_nonzero (h : a.Twins s b) (h0 : a.residual ≠ 0) :
    Both SameVector (a.neg s) (b.neg s) := by
  intro m hm n hn
  obtain ⟨-, rfl⟩ := checked_eq_ok_iff.mp hm
  obtain ⟨-, rfl⟩ := checked_eq_ok_iff.mp hn
  refine ⟨(h.components_eq h0).1, ?_⟩
  show -a.residual = -b.residual
  rw [h.residual_eq]

theorem realLog (h : a.Twins s a') (h' : b.Twins s b') :
    Both (Value.Twins s) (Monzo.realLog a b) (Monzo.realLog a' b') :=
  Value.Twins.map_real (by rw [h.toApprox_eq, h'.toApprox_eq])

/-- Both have the real logarithm when no exact one is found. -/
theorem logOfSolution (h : a.Twins s a') (h' : b.Twins s b') :
    ∀ x y : Option ℚ, x = y → Both (Value.Twins s)
      (match x with | some x => (Monzo.ofRatio s x).map .exact | none => Monzo.realLog a b)
      (match y with | some x => (Monzo.ofRatio s x).map .exact | none => Monzo.realLog a' b') := by
  rintro x _ rfl
  cases x with
  | none => exact h.realLog h'
  | some x => exact Value.Twins.map_exact (ofRatio s x)

theorem scalarLog (h : a.Twins s a') (h' : b.Twins s b') :
    Both (Value.Twins s) (Monzo.scalarLog s a b) (Monzo.scalarLog s a' b') := by
  unfold Monzo.scalarLog
  simp only [h.residual_eq, h'.residual_eq]
  refine .ite Iff.rfl (fun hneg => ?_) fun _ => .ite Iff.rfl (fun _ => ?_) fun hpos => ?_
  · refine h.neg_nonzero (h.residual_eq ▸ hneg.1.ne) |>.bind fun c c' hc =>
      (h'.neg_nonzero (h'.residual_eq ▸ hneg.2.ne)).bind fun d d' hd => ?_
    exact (solve_same hc hd).bind (h.logOfSolution h')
  · exact Both.bind (R := fun x y => x = y) (.ok rfl) (h.logOfSolution h')
  · rw [not_or, not_le, not_le, ← h.residual_eq, ← h'.residual_eq] at hpos
    exact (solve_same (h.sameVector hpos.1.ne') (h'.sameVector hpos.2.ne')).bind (h.logOfSolution h')

theorem log (h : a.Twins s a') (h' : b.Twins s b') :
    Both (Value.Twins s) (a.log s b) (a'.log s b') := by
  have hscalar : ∀ {c d : Monzo}, Canonical s c → Canonical s d → c.time = 0 → d.time = 0 →
      c.log s d = Monzo.scalarLog s c d := by
    intro c d hc hd htc htd
    unfold Monzo.log
    rw [isUncorrected, isUncorrected, hc.uncorrected, hd.uncorrected, htc, htd]
    rfl
  rw [hscalar h.left h'.left h.left_time h'.left_time,
    hscalar h.right h'.right h.right_time h'.right_time]
  exact h.scalarLog h'

/-! ## Reduction and rounding -/

theorem periods? (h : a.Twins s a') (h' : b.Twins s b') :
    Both (fun x y => x = y) (Monzo.periods? s a b) (Monzo.periods? s a' b') := by
  unfold Monzo.periods?
  rw [isScalar, isScalar, isScalar, isScalar, h.left_time, h'.left_time, h.right_time,
    h'.right_time]
  refine .ite Iff.rfl (fun _ => ?_) fun _ => .ok rfl
  refine h.abs.bind fun c c' hc => h'.abs.bind fun d d' hd => (hc.log hd).bind fun v w hvw => ?_
  cases hvw with
  | exact hx =>
    simp only [hx.left.toRatio, hx.right.toRatio, hx.ratio_eq]
    exact .diag fun _ _ => rfl
  | real x => exact .ok rfl

theorem divPower (h : a.Twins s a') (h' : b.Twins s b') (count : Int) :
    Both (Value.Twins s) (Monzo.divPower s a b count) (Monzo.divPower s a' b' count) := by
  unfold Monzo.divPower
  refine (h'.powRatio count).bind fun v w hvw => ?_
  exact Value.Twins.lift (fun hx hy => hx.div hy) (.exact h) hvw

theorem reduce (h : a.Twins s a') (h' : b.Twins s b') (ceiling : Bool) :
    Both (Value.Twins s) (a.reduce s b ceiling) (a'.reduce s b' ceiling) := by
  have hperiod := h'.totalCents
  unfold Monzo.reduce
  simp only
  refine Both.ite (by rw [hperiod.beq_zero_eq, hperiod.isFinite_eq]) (fun _ => .error_left)
    fun hfin => ?_
  simp only [Bool.or_eq_true, Bool.not_eq_true', not_or, Bool.not_eq_true,
    Bool.not_eq_false] at hfin
  refine (h.periods? h').bind ?_
  rintro x _ rfl
  cases x with
  | some x => exact h.divPower h' _
  | none =>
    have hquotient := h.totalCents.div hperiod hfin.2 hfin.1
    refine .ite (by rw [hquotient.isFinite_eq]) (fun _ => ?_) fun _ => Value.Twins.map_real ?_
    · have hcount : Approx.wholePeriods (a.totalCents / b.totalCents) ceiling =
          Approx.wholePeriods (a'.totalCents / b'.totalCents) ceiling := by
        unfold Approx.wholePeriods
        rw [hquotient.floorInt_eq, hquotient.ceilInt_eq]
      rw [hcount]
      exact h.divPower h' _
    · rw [h.toApprox_eq, h'.toApprox_eq]

theorem nearestInteger?_eq {v w : Value} (h : Value.Twins s v w) :
    v.nearestInteger? = w.nearestInteger? := by
  cases h with
  | exact h =>
    simp only [Value.nearestInteger?]
    rw [if_pos h.left.isFractional, if_pos h.right.isFractional, h.ratio_eq]
  | real x => rfl

theorem undefinedLike (h : a.Twins s b) :
    Both (ε := Fault) (Value.Twins s) (.ok a.undefinedLike) (.ok b.undefinedLike) :=
  Value.Twins.ok_real (by rw [h.left_time, h.right_time])

theorem roundTo (h : a.Twins s a') (h' : b.Twins s b') :
    Both (Value.Twins s) (a.roundTo s b) (a'.roundTo s b') := by
  obtain ⟨hu, hu'⟩ := requireUnits_eq "round" h h'
  unfold Monzo.roundTo
  rw [hu, hu']
  refine (h.div h').bind fun v w hvw => ?_
  rw [nearestInteger?_eq hvw]
  cases w.nearestInteger? with
  | none => exact h.undefinedLike
  | some n => exact (ofRatio s n).bind fun c c' hc => Value.Twins.map_exact (h'.mul hc)

theorem pitchRoundTo (h : a.Twins s a') (h' : b.Twins s b') :
    Both (Value.Twins s) (a.pitchRoundTo s b) (a'.pitchRoundTo s b') := by
  unfold Monzo.pitchRoundTo
  refine (h.log h').bind fun v w hvw => ?_
  rw [nearestInteger?_eq hvw]
  cases w.nearestInteger? with
  | none => exact h.undefinedLike
  | some n => exact h'.powRatio n

end Twins

end Monzo

namespace Value.Twins

variable {s : Settings} {v v' w w' : Value}

theorem inverse (h : Twins s v w) : Both (Twins s) (v.inverse s) (w.inverse s) := by
  cases h with
  | exact h => exact h.inverse
  | real x => exact ok_real rfl

theorem add (h : Twins s v v') (h' : Twins s w w') : Both (Twins s) (v.add s w) (v'.add s w') :=
  lift (fun ha hb => ha.add hb) h h'

theorem sub (h : Twins s v v') (h' : Twins s w w') : Both (Twins s) (v.sub s w) (v'.sub s w') :=
  lift (fun ha hb => ha.sub hb) h h'

theorem lensAdd (h : Twins s v v') (h' : Twins s w w') :
    Both (Twins s) (v.lensAdd s w) (v'.lensAdd s w') := by
  refine lift (fun ha hb => ?_) h h'
  exact ha.inverse.bind fun x x' hx => hb.inverse.bind fun y y' hy =>
    (hx.add hy).bind fun z z' hz => hz.inverse

theorem lensSub (h : Twins s v v') (h' : Twins s w w') :
    Both (Twins s) (v.lensSub s w) (v'.lensSub s w') := by
  refine lift (fun ha hb => ?_) h h'
  exact ha.inverse.bind fun x x' hx => hb.inverse.bind fun y y' hy =>
    (hx.sub hy).bind fun z z' hz => hz.inverse

end Value.Twins

end Intonation
