import Intonation.Interval.Quantity
import Intonation.Proofs.Monzo.Coordinates

/-!
# Mapping is bilinear

A val maps a logarithmic interval to the sum of the products of their coordinates, whatever bases
and residuals either of them has and whatever the val adds for ups and lifts. Coordinates add up in
sums of intervals and in sums of vals, so that mapping is linear in both.

## Main definitions

* `Interval.Plain`: a logarithmic interval with an exact scalar value without real correction
* `Interval.DenotesInteger`: an integer as a scalar
* `Val.Maps`: the number of steps that a val maps an interval to

## Main statements

* `Val.Maps.eq_sum`: the number of steps from the coordinates
* `Val.maps_bilinear`: sums, multiples and opposites on either side
-/

namespace Intonation

namespace Quantity

theorem map_interval_eq_ok {x : Except Fault Interval} {i : Interval} :
    x.map interval = .ok (.interval i) ↔ x = .ok i :=
  map_eq_ok_of_injective fun _ _ => Quantity.interval.inj

theorem map_val_eq_ok {x : Except Fault Val} {v : Val} : x.map val = .ok (.val v) ↔ x = .ok v :=
  map_eq_ok_of_injective fun _ _ => Quantity.val.inj

end Quantity

namespace Interval

variable {s : Settings} {a b c i j scalar : Interval} {m n : Monzo} {k : Int} {r : ℚ}

/-! ## Sums and multiples of intervals -/

/-- A logarithmic interval with an exact scalar value without real correction. -/
structure Plain (i : Interval) (m : Monzo) : Prop where
  domain : i.domain = .logarithmic
  value : i.value = .exact m
  time : m.time = 0
  uncorrected : m.cents == 0

/-- An integer that is not spelled as a real decimal. -/
structure DenotesInteger (i : Interval) (k : Int) : Prop where
  toRatio : i.value.toRatio = .ok k
  spelled : i.literal.any Literal.isRealDecimal = false

theorem denotesInteger_ofInteger (h : ofInteger s k = .ok i) : i.DenotesInteger k := by
  obtain ⟨m, hm, rfl⟩ := map_eq_ok.mp h
  obtain ⟨hcanonical, hratio, -⟩ := Monzo.canonical_ofRatio hm
  exact ⟨hcanonical.toRatio.trans (congrArg _ hratio), rfl⟩

/-- Composing intervals multiplies their values. -/
theorem value_add (ha : a.domain = .logarithmic) (h : a.add s b = .ok c) :
    c.domain = .logarithmic ∧ a.value.mul s b.value = .ok c.value := by
  simp only [add, ha, reduceCtorEq, if_false] at h
  obtain ⟨-, -, h⟩ := bind_eq_ok.mp h
  obtain ⟨x, hx, h⟩ := bind_eq_ok.mp h
  obtain ⟨v, hv, h⟩ := bind_eq_ok.mp h
  cases h
  exact ⟨rfl, hv⟩

theorem value_scaled {l : Option Literal} {metadata : Metadata} (hi : i.domain = .logarithmic)
    (hk : scalar.literal.any Literal.isRealDecimal = false)
    (h : scaled s i scalar l metadata = .ok c) :
    c.domain = .logarithmic ∧ i.value.pow s scalar.value = .ok c.value := by
  simp only [scaled, hk, Bool.false_eq_true, if_false] at h
  obtain ⟨v, hv, h⟩ := bind_eq_ok.mp h
  rw [hi] at h
  cases h
  exact ⟨rfl, hv⟩

/-- Multiplying an interval by an integer, on either side, raises its value to a power. -/
theorem value_mul (hi : i.domain = .logarithmic) (hk : scalar.DenotesInteger k)
    (h : i.mul s scalar = .ok c ∨ scalar.mul s i = .ok c) :
    c.domain = .logarithmic ∧ i.value.pow s scalar.value = .ok c.value := by
  by_cases hlinear : scalar.domain = .linear
  · rcases h with h | h
    · simp only [mul, hi, hlinear, ne_eq, not_true_eq_false, and_false, if_false, if_true,
        reduceCtorEq] at h
      obtain ⟨x, hx, h⟩ := bind_eq_ok.mp h
      exact value_scaled hi hk.spelled h
    · simp only [mul, hi, hlinear, ne_eq, not_true_eq_false, false_and, if_false, if_true] at h
      obtain ⟨x, hx, h⟩ := bind_eq_ok.mp h
      exact value_scaled hi hk.spelled h
  · -- neither operand is linear
    rcases h with h | h
    · simp only [mul, hi, hlinear, ne_eq, reduceCtorEq, not_false_eq_true, and_self, if_true] at h
      cases h
    · simp only [mul, hi, hlinear, ne_eq, reduceCtorEq, not_false_eq_true, and_self, if_true] at h
      cases h

/-- A power with an integer as exponent. -/
theorem DenotesInteger.pow_eq {v : Value} (hk : scalar.DenotesInteger k)
    (h : (Value.exact m).pow s scalar.value = .ok v) : m.powRatio s k = .ok v := by
  have hratio := hk.toRatio
  cases hvalue : scalar.value with
  | real x =>
    rw [hvalue] at hratio
    cases hratio
  | exact e =>
    rw [hvalue] at hratio h
    change e.toRatio = _ at hratio
    change m.pow s (.exact e) = _ at h
    unfold Monzo.toRatio at hratio
    unfold Monzo.pow at h
    split at hratio
    · next hfrac =>
      split at h
      · cases h
      · simp only [hfrac, if_true, Except.ok.inj hratio] at h
        exact h
    · cases hratio

namespace Plain

variable {v : Value}

/-- The sum of plain intervals is plain. -/
theorem add (ha : a.Plain m) (hb : b.Plain n) (h : a.add s b = .ok c) :
    ∃ p, c.Plain p ∧ m.mul s n = .ok p := by
  obtain ⟨hdomain, hvalue⟩ := value_add ha.domain h
  rw [ha.value, hb.value] at hvalue
  obtain ⟨p, hp, heq⟩ := map_eq_ok.mp hvalue
  obtain ⟨-, -, htime, hcents, -⟩ := Monzo.parts_of_mul hp
  refine ⟨p, ⟨hdomain, heq.symm, ?_, ?_⟩, hp⟩
  · rw [htime, ha.time, hb.time, add_zero]
  · rw [hcents]
    exact Double.add_beq_zero ha.uncorrected hb.uncorrected

/-- A whole multiple of a plain interval is plain when it is exact. -/
theorem mul (ha : a.Plain m) (hk : scalar.DenotesInteger k) (hm : m.residual ≠ 0)
    (h : a.mul s scalar = .ok c ∨ scalar.mul s a = .ok c) (hc : c.value = .exact n) :
    c.Plain n ∧ m.powRatio s k = .ok (.exact n) := by
  obtain ⟨hdomain, hvalue⟩ := value_mul ha.domain hk h
  rw [ha.value, hc] at hvalue
  have hpow := hk.pow_eq hvalue
  obtain ⟨-, htime, hcents⟩ := Monzo.coordinate_powRatio hpow hm
  refine ⟨⟨hdomain, hc, ?_, hcents ha.uncorrected⟩, hpow⟩
  rw [htime, ha.time, zero_mul]

end Plain

/-! ## Steps -/

/-- A number of steps denotes itself. -/
theorem toRatio_ofSteps {steps : ℚ} {metadata : Metadata} (h : ofSteps s steps metadata = .ok j) :
    j.value.toRatio = .ok steps := by
  obtain ⟨m, hm, h⟩ := bind_eq_ok.mp h
  cases h
  obtain ⟨hcanonical, hratio, -⟩ := Monzo.canonical_ofRatio hm
  exact hcanonical.toRatio.trans (congrArg _ hratio)

/-- Counting ups leaves the coordinates of a map. -/
theorem parts_of_countingUps {v : Value} (h : countingUps s v = .ok (.exact n)) :
    ∃ m, v = .exact m ∧ n.parts = m.parts := by
  cases v with
  | real x => cases h
  | exact m =>
    obtain ⟨p, hp, heq⟩ := map_eq_ok.mp h
    cases heq
    obtain ⟨-, rfl⟩ := Monzo.checked_eq_ok_iff.mp hp
    exact ⟨m, rfl, rfl⟩

end Interval

namespace Val
open Intonation.Prime (tableSize)

variable {s : Settings} {u v w : Val} {a b c i j scalar : Interval} {l m n : Monzo} {k : Int}
  {r x y z : ℚ}

/-- A val maps an interval to a number of steps, under some settings. -/
def Maps (v : Val) (i : Interval) (steps : ℚ) : Prop :=
  ∃ s j, Quantity.dot s (.val v) (.interval i) = .ok j ∧ j.value.toRatio = .ok steps

/-- Whatever a val maps an interval to is a number of steps. -/
theorem exists_maps (h : Quantity.dot s (.val v) (.interval i) = .ok j) :
    ∃ r, j.value.toRatio = .ok r ∧ v.Maps i r := by
  obtain ⟨map, -, hsteps⟩ := bind_eq_ok.mp (show i.dotVal s v = .ok j from h)
  obtain ⟨steps, -, hsteps⟩ := bind_eq_ok.mp hsteps
  have hratio := Interval.toRatio_ofSteps hsteps
  exact ⟨steps, hratio, s, j, h, hratio⟩

/-- The number of steps of a plain interval is the sum of the products of coordinates, over any
number of primes that is large enough. -/
theorem Maps.eq_sum (h : v.Maps i r) (hi : i.Plain m) : ∃ n, v.value = .exact n ∧
    m.residual ≠ 0 ∧ n.residual ≠ 0 ∧ ∀ᶠ N in Filter.atTop,
      r = ∑ k ∈ Finset.range N, Monzo.coordinate m.parts k * Monzo.coordinate n.parts k := by
  obtain ⟨s, j, hdot, hr⟩ := h
  obtain ⟨map, hmap, hsteps⟩ := bind_eq_ok.mp (show i.dotVal s v = .ok j from hdot)
  obtain ⟨steps, hpairing, hsteps⟩ := bind_eq_ok.mp hsteps
  obtain rfl : steps = r := Except.ok.inj ((Interval.toRatio_ofSteps hsteps).symm.trans hr)
  rw [hi.value] at hpairing
  cases map with
  | real x => cases hpairing
  | exact p =>
    obtain ⟨n, hn, hparts⟩ := Interval.parts_of_countingUps hmap
    obtain ⟨hm, hp, -⟩ := Monzo.dot_eq_sum hpairing hi.time hi.uncorrected le_rfl
    refine ⟨n, hn, hm, fun h0 => hp ((congrArg Prod.snd hparts).trans h0), ?_⟩
    rw [← hparts]
    exact Filter.eventually_atTop.mpr
      ⟨_, fun N hN => (Monzo.dot_eq_sum hpairing hi.time hi.uncorrected hN).2.2⟩

/-- What a val maps an interval to does not depend on the settings. -/
theorem Maps.unique (hi : i.Plain m) (h : v.Maps i x) (h' : v.Maps i y) : x = y := by
  obtain ⟨n, hn, -, -, hx⟩ := h.eq_sum hi
  obtain ⟨n', hn', -, -, hy⟩ := h'.eq_sum hi
  cases hn.symm.trans hn'
  obtain ⟨N, hx, hy⟩ := (hx.and hy).exists
  rw [hx, hy]

/-! ### Sums and multiples of intervals -/

theorem Maps.add_interval (ha : a.Plain m) (hb : b.Plain n) (hc : a.add s b = .ok c)
    (hx : v.Maps a x) (hy : v.Maps b y) (hz : v.Maps c z) : z = x + y := by
  obtain ⟨p, hp, hmul⟩ := ha.add hb hc
  obtain ⟨l, hl, hm0, -, hx⟩ := hx.eq_sum ha
  obtain ⟨l', hl', hn0, -, hy⟩ := hy.eq_sum hb
  obtain ⟨l'', hl'', -, -, hz⟩ := hz.eq_sum hp
  cases hl.symm.trans hl'
  cases hl.symm.trans hl''
  obtain ⟨N, hx, hy, hz⟩ := (hx.and (hy.and hz)).exists
  rw [hx, hy, hz, ← Finset.sum_add_distrib]
  refine Finset.sum_congr rfl fun k _ => ?_
  rw [Monzo.coordinate_mul hmul hm0 hn0, add_mul]

theorem Maps.mul_interval (ha : a.Plain m) (hk : scalar.DenotesInteger k)
    (hc : a.mul s scalar = .ok c ∨ scalar.mul s a = .ok c) (hx : v.Maps a x) (hz : v.Maps c z) :
    z = k * x := by
  obtain ⟨l, hl, hm0, -, hx⟩ := hx.eq_sum ha
  cases hvalue : c.value with
  | real e =>
    -- a real interval is not mapped at all
    obtain ⟨t, j, hdot, -⟩ := hz
    obtain ⟨map, -, hsteps⟩ := bind_eq_ok.mp (show c.dotVal t v = .ok j from hdot)
    obtain ⟨steps, hpairing, -⟩ := bind_eq_ok.mp hsteps
    rw [hvalue] at hpairing
    cases map <;> cases hpairing
  | exact p =>
    obtain ⟨hp, hpow⟩ := ha.mul hk hm0 hc hvalue
    obtain ⟨l', hl', -, -, hz⟩ := hz.eq_sum hp
    cases hl.symm.trans hl'
    obtain ⟨N, hx, hz⟩ := (hx.and hz).exists
    rw [hx, hz, Finset.mul_sum]
    refine Finset.sum_congr rfl fun i _ => ?_
    rw [(Monzo.coordinate_powRatio hpow hm0).1, mul_assoc]

/-! ### Sums, multiples and opposites of vals -/

theorem value_of_make {p e : Value} {literal : Option Literal} (h : make p e literal = .ok w) :
    w.value = p := by
  unfold make at h
  split at h
  · cases h
    rfl
  · cases h

theorem Maps.add_val (ha : a.Plain m) (hw : u.add s v = .ok w) (hx : u.Maps a x)
    (hy : v.Maps a y) (hz : w.Maps a z) : z = x + y := by
  obtain ⟨-, -, hw⟩ := bind_eq_ok.mp hw
  obtain ⟨value, hvalue, hw⟩ := bind_eq_ok.mp hw
  obtain ⟨literal, -, hw⟩ := bind_eq_ok.mp hw
  obtain ⟨p, hp, -, hp0, hx⟩ := hx.eq_sum ha
  obtain ⟨q, hq, -, hq0, hy⟩ := hy.eq_sum ha
  obtain ⟨r, hr, -, -, hz⟩ := hz.eq_sum ha
  rw [hp, hq] at hvalue
  obtain ⟨r', hmul, rfl⟩ := map_eq_ok.mp hvalue
  cases hr.symm.trans (value_of_make hw)
  obtain ⟨N, hx, hy, hz⟩ := (hx.and (hy.and hz)).exists
  rw [hx, hy, hz, ← Finset.sum_add_distrib]
  refine Finset.sum_congr rfl fun k _ => ?_
  rw [Monzo.coordinate_mul hmul hp0 hq0, mul_add]

theorem Maps.mul_val (ha : a.Plain m) (hk : scalar.DenotesInteger k) (hw : v.mul s scalar = .ok w)
    (hx : v.Maps a x) (hz : w.Maps a z) : z = k * x := by
  obtain ⟨-, -, hw⟩ := bind_eq_ok.mp hw
  rw [hk.spelled, if_neg Bool.false_ne_true] at hw
  obtain ⟨value, hvalue, hw⟩ := bind_eq_ok.mp hw
  obtain ⟨literal, -, hw⟩ := bind_eq_ok.mp hw
  obtain ⟨p, hp, -, hp0, hx⟩ := hx.eq_sum ha
  obtain ⟨r, hr, -, -, hz⟩ := hz.eq_sum ha
  rw [hp] at hvalue
  obtain rfl := hr.symm.trans (value_of_make hw)
  obtain ⟨N, hx, hz⟩ := (hx.and hz).exists
  rw [hx, hz, Finset.mul_sum]
  refine Finset.sum_congr rfl fun i _ => ?_
  rw [(Monzo.coordinate_powRatio (hk.pow_eq hvalue) hp0).1]
  ring

theorem Maps.neg_val (ha : a.Plain m) (hw : v.neg s = .ok w) (hx : v.Maps a x)
    (hz : w.Maps a z) : z = -x := by
  obtain ⟨value, hvalue, hw⟩ := bind_eq_ok.mp hw
  obtain ⟨p, hp, -, -, hx⟩ := hx.eq_sum ha
  obtain ⟨r, hr, -, -, hz⟩ := hz.eq_sum ha
  rw [hp] at hvalue
  obtain rfl := hr.symm.trans (value_of_make hw)
  obtain ⟨N, hx, hz⟩ := (hx.and hz).exists
  rw [hx, hz, ← Finset.sum_neg_distrib]
  refine Finset.sum_congr rfl fun k _ => ?_
  rw [(Monzo.coordinate_inverse hvalue).2, mul_neg]

/-- Multiplying a val by an interval on either side, which is linear on the left side. -/
theorem mul_of_quantity (h : Quantity.mul s (.val v) (.interval i) = .ok (.val w) ∨
    Quantity.mul s (.interval i) (.val v) = .ok (.val w)) : v.mul s i = .ok w := by
  rcases h with h | h
  · exact Quantity.map_val_eq_ok.mp h
  · change (if i.domain = .linear then (v.mul s i).map Quantity.val
      else .error (.linearRequired "multiplication")) = .ok (.val w) at h
    split at h
    · exact Quantity.map_val_eq_ok.mp h
    · cases h

/-- Mapping by vals is bilinear, under any settings for each operation and for each mapping. What a
val maps an interval to is always a number of steps, and a single one. For plain intervals it is
additive and respects multiples in the interval, and in the val, whatever real corrections, bases
and residuals the val has; opposite vals map to opposite steps. -/
theorem maps_bilinear :
    (∀ (s : Settings) (v : Val) (a j : Interval),
      Quantity.dot s (.val v) (.interval a) = .ok j → ∃ r, j.value.toRatio = .ok r ∧ v.Maps a r) ∧
    ∀ (u v : Val) (a b : Interval) (m n : Monzo), a.Plain m → b.Plain n →
      (∀ x y, v.Maps a x → v.Maps a y → x = y) ∧
      (∀ s c x y z, Quantity.add s (.interval a) (.interval b) = .ok (.interval c) →
        v.Maps a x → v.Maps b y → v.Maps c z → z = x + y) ∧
      (∀ (s : Settings) (k : Int) (scalar c : Interval) (x z : ℚ), scalar.DenotesInteger k →
        (Quantity.mul s (.interval a) (.interval scalar) = .ok (.interval c) ∨
          Quantity.mul s (.interval scalar) (.interval a) = .ok (.interval c)) →
        v.Maps a x → v.Maps c z → z = k * x) ∧
      (∀ s w x y z, Quantity.add s (.val u) (.val v) = .ok (.val w) →
        u.Maps a x → v.Maps a y → w.Maps a z → z = x + y) ∧
      (∀ (s : Settings) (k : Int) (scalar : Interval) (w : Val) (x z : ℚ), scalar.DenotesInteger k →
        (Quantity.mul s (.val v) (.interval scalar) = .ok (.val w) ∨
          Quantity.mul s (.interval scalar) (.val v) = .ok (.val w)) →
        v.Maps a x → w.Maps a z → z = k * x) ∧
      (∀ s w x z, Quantity.neg s (.val v) = .ok (.val w) →
        v.Maps a x → w.Maps a z → z = -x) := by
  refine ⟨fun s v a j h => exists_maps h, fun u v a b m n ha hb => ⟨fun x y => Maps.unique ha,
    fun s c x y z h => ?_, fun s k scalar c x z hk h => ?_, fun s w x y z h => ?_,
    fun s k scalar w x z hk h => ?_, fun s w x z h => ?_⟩⟩
  · exact Maps.add_interval ha hb (Quantity.map_interval_eq_ok.mp h)
  · exact Maps.mul_interval ha hk
      (h.imp Quantity.map_interval_eq_ok.mp Quantity.map_interval_eq_ok.mp)
  · exact Maps.add_val ha (Quantity.map_val_eq_ok.mp h)
  · exact Maps.mul_val ha hk (mul_of_quantity h)
  · exact Maps.neg_val ha (Quantity.map_val_eq_ok.mp h)

theorem maps_of_toRatio (h : (Quantity.dot s (.val v) (.interval i) >>= fun j => j.value.toRatio) =
    .ok r) : v.Maps i r := by
  obtain ⟨j, hj, hr⟩ := bind_eq_ok.mp h
  exact ⟨s, j, hj, hr⟩

/-- Two maps over different bases, one with two ups and the other one with a prime in its residual,
and two intervals with primes in their residuals: a fifth, and seven fifths over no primes. -/
theorem maps_bilinear_fifth :
    let v : Val := {
      value := .exact { exps := [12, 19, 28], cents := 2 }
      equave := .exact { exps := [1] } }
    let u : Val := {
      value := .exact { exps := [5, 8], residual := 7 }
      equave := .exact { exps := [1] } }
    let a : Interval := { value := .exact { exps := [-1], residual := 3 }, domain := .logarithmic }
    let b : Interval := {
      value := .exact { exps := [], residual := 7 / 5 }
      domain := .logarithmic }
    v.Maps a 7 ∧ v.Maps b (-28) ∧ u.Maps a 3 ∧
      (∃ c, Quantity.add {} (.interval a) (.interval b) = .ok (.interval c) ∧
        v.Maps c (7 + -28)) ∧
      (∃ k c, k.DenotesInteger (-3) ∧
        Quantity.mul {} (.interval k) (.interval a) = .ok (.interval c) ∧ v.Maps c (-3 * 7)) ∧
      (∃ w, Quantity.add {} (.val u) (.val v) = .ok (.val w) ∧ w.Maps a (3 + 7)) ∧
      (∃ k w, k.DenotesInteger (-3) ∧ Quantity.mul {} (.val v) (.interval k) = .ok (.val w) ∧
        w.Maps a (-3 * 7)) ∧
      ∃ w, Quantity.neg {} (.val v) = .ok (.val w) ∧ w.Maps a (-7) := by
  intro v u a b
  have ha : a.Plain { exps := [-1], residual := 3 } := ⟨rfl, rfl, rfl, Double.zero_beq_zero⟩
  have hb : b.Plain { exps := [], residual := 7 / 5 } := ⟨rfl, rfl, rfl, Double.zero_beq_zero⟩
  have hmaps :
      (Quantity.dot {} (.val v) (.interval a) >>= fun j => j.value.toRatio) = .ok 7 ∧
      (Quantity.dot {} (.val v) (.interval b) >>= fun j => j.value.toRatio) = .ok (-28) ∧
      (Quantity.dot {} (.val u) (.interval a) >>= fun j => j.value.toRatio) = .ok 3 := by
    decide +kernel
  have hva := maps_of_toRatio hmaps.1
  have hvb := maps_of_toRatio hmaps.2.1
  have hua := maps_of_toRatio hmaps.2.2
  -- whatever the results are, they are there and can be mapped
  have hreturns :
      (a.add {} b >>= fun c => Quantity.dot {} (.val v) (.interval c)).isOk ∧
      (Interval.ofInteger {} (-3) >>= fun k => k.mul {} a >>= fun c =>
        Quantity.dot {} (.val v) (.interval c)).isOk ∧
      (u.add {} v >>= fun w => Quantity.dot {} (.val w) (.interval a)).isOk ∧
      (Interval.ofInteger {} (-3) >>= fun k => v.mul {} k >>= fun w =>
        Quantity.dot {} (.val w) (.interval a)).isOk ∧
      (v.neg {} >>= fun w => Quantity.dot {} (.val w) (.interval a)).isOk := by
    decide +kernel
  obtain ⟨hadded, hscaled, hsummed, htimes, hnegated⟩ := hreturns
  obtain ⟨hdefined, hlinear⟩ := maps_bilinear
  obtain ⟨-, hadd, hmul, hsum, hscale, hneg⟩ := hlinear u v a b _ _ ha hb
  refine ⟨hva, hvb, hua, ?_, ?_, ?_, ?_, ?_⟩
  -- each result is mapped to what the operands are mapped to
  · obtain ⟨j, hj⟩ := exists_of_isOk hadded
    obtain ⟨c, hc, hj⟩ := bind_eq_ok.mp hj
    obtain ⟨z, -, hz⟩ := hdefined _ _ _ _ hj
    have hadded : Quantity.add {} (.interval a) (.interval b) = .ok (.interval c) :=
      Quantity.map_interval_eq_ok.mpr hc
    exact ⟨c, hadded, hadd {} c _ _ z hadded hva hvb hz ▸ hz⟩
  · obtain ⟨j, hj⟩ := exists_of_isOk hscaled
    obtain ⟨k, hk, hj⟩ := bind_eq_ok.mp hj
    obtain ⟨c, hc, hj⟩ := bind_eq_ok.mp hj
    obtain ⟨z, -, hz⟩ := hdefined _ _ _ _ hj
    have hscaled : Quantity.mul {} (.interval k) (.interval a) = .ok (.interval c) :=
      Quantity.map_interval_eq_ok.mpr hc
    have hinteger := Interval.denotesInteger_ofInteger hk
    have heq := hmul {} (-3) k c _ z hinteger (.inr hscaled) hva hz
    push_cast at heq
    exact ⟨k, c, hinteger, hscaled, heq ▸ hz⟩
  · obtain ⟨j, hj⟩ := exists_of_isOk hsummed
    obtain ⟨w, hw, hj⟩ := bind_eq_ok.mp hj
    obtain ⟨z, -, hz⟩ := hdefined _ _ _ _ hj
    have hadded : Quantity.add {} (.val u) (.val v) = .ok (.val w) :=
      Quantity.map_val_eq_ok.mpr hw
    exact ⟨w, hadded, hsum {} w _ _ z hadded hua hva hz ▸ hz⟩
  · obtain ⟨j, hj⟩ := exists_of_isOk htimes
    obtain ⟨k, hk, hj⟩ := bind_eq_ok.mp hj
    obtain ⟨w, hw, hj⟩ := bind_eq_ok.mp hj
    obtain ⟨z, -, hz⟩ := hdefined _ _ _ _ hj
    have htimes : Quantity.mul {} (.val v) (.interval k) = .ok (.val w) :=
      Quantity.map_val_eq_ok.mpr hw
    have hinteger := Interval.denotesInteger_ofInteger hk
    have heq := hscale {} (-3) k w _ z hinteger (.inl htimes) hva hz
    push_cast at heq
    exact ⟨k, w, hinteger, htimes, heq ▸ hz⟩
  · obtain ⟨j, hj⟩ := exists_of_isOk hnegated
    obtain ⟨w, hw, hj⟩ := bind_eq_ok.mp hj
    obtain ⟨z, -, hz⟩ := hdefined _ _ _ _ hj
    have hnegated : Quantity.neg {} (.val v) = .ok (.val w) := Quantity.map_val_eq_ok.mpr hw
    exact ⟨w, hnegated, hneg {} w _ z hnegated hva hz ▸ hz⟩

end Val

end Intonation
