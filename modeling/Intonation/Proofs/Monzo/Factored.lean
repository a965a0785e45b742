import Intonation.Proofs.Monzo.Group
import Intonation.Proofs.Monzo.Rational
import Intonation.Proofs.Ratio.Root
import Intonation.Value.Measure

/-!
# Factored values

A value keeps every prime of its basis in its exponents and none of them in its residual. The
constructor does not ask for that: each operation keeps it by itself, whatever the settings in
force, so it holds of every value that a run of operations reaches.

## Main definitions

* `Monzo.Factored`: the residual holds no prime of the basis
* `Value.Source`, `Value.Unary`, `Value.Binary`: constructions and operations
* `Value.Reached`: the values that a run reaches

## Main statements

* `Value.factored_build`, `Value.factored_unary`, `Value.factored_binary`: every step keeps the form
* `Value.Reached.factored`: every run keeps it
-/

namespace Intonation

/-! ## Powers of ratios without primes -/

namespace Prime.Free

variable {primes : List Nat} {q r : ℚ}

theorem pow? (hd : Distinct primes) (hq : Free primes q) {x : ℚ} (h : Ratio.pow? q x = some r) :
    Free primes r := by
  intro p hp
  have := Fact.mk (hd.prime p hp)
  have hval := congrArg (padicValRat p) (Ratio.pow_den_of_pow? h)
  rw [padicValRat.zpow, hq p hp, mul_zero, ← zpow_natCast, padicValRat.zpow] at hval
  exact (mul_eq_zero.mp hval).resolve_left (by exact_mod_cast x.den_ne_zero)

/-- A common divisor of ratios without the primes is without them. -/
theorem gcd (hd : Distinct primes) (hq : Free primes q) (hr : Free primes r) :
    Free primes (Ratio.gcd q r) := by
  have hden : ∀ {t : ℚ}, Free primes t → ∀ p ∈ primes, ¬ p ∣ t.den := by
    intro t ht p hp
    rcases eq_or_ne t 0 with rfl | h0
    · exact (hd.prime p hp).not_dvd_one
    · exact (ht.not_dvd hd h0 hp).2
  unfold Ratio.gcd
  by_cases h0 : q = 0 ∧ r = 0
  · rw [h0.1, h0.2]
    exact Free.zero _
  · rw [Rat.mkRat_eq_div]
    refine Free.of_not_dvd hd (fun p hp hdvd => ?_) (fun p hp hdvd => ?_)
    · rcases not_and_or.mp h0 with h0 | h0
      · exact (hq.not_dvd hd h0 hp).1 (hdvd.trans (Nat.gcd_dvd_left _ _))
      · exact (hr.not_dvd hd h0 hp).1 (hdvd.trans (Nat.gcd_dvd_right _ _))
    · rcases (hd.prime p hp).dvd_mul.mp (hdvd.trans (Nat.lcm_dvd_mul _ _)) with h1 | h1
      · exact hden hq p hp h1
      · exact hden hr p hp h1

theorem mono {primes' : List Nat} (h : Free primes q) (hsub : primes' ⊆ primes) :
    Free primes' q := fun p hp => h p (hsub hp)

end Prime.Free

namespace Monzo
open Double Intonation.Prime

variable {s : Settings} {a b m n : Monzo} {count : Nat}

/-! ## The form -/

/-- No prime of the basis is left in the residual, and nothing lies beyond the table. -/
structure Factored (m : Monzo) : Prop where
  free : Free (table.take m.components) m.residual
  vanish : ∀ e ∈ m.exps.drop tableSize, e = 0

end Monzo

/-- A value in factored form, when it is exact. -/
def Value.Factored : Value → Prop
  | .exact m => m.Factored
  | .real _ => True

namespace Monzo
open Double Intonation.Prime

variable {s : Settings} {a b m n : Monzo} {count : Nat}

namespace Factored

/-- Every bound leaves a value without components beyond the table. -/
theorem checked (h : Free (table.take m.components) m.residual) :
    Ensures Factored (Monzo.checked s m) := by
  rw [Ensures.iff_forall]
  intro n hn
  obtain ⟨hbounded, rfl⟩ := checked_eq_ok_iff.mp hn
  exact ⟨h, vanish_of_bounded hbounded⟩

/-- A value with other components over the same primes. -/
theorem checked_of_length (h : Free (table.take m.components) n.residual)
    (hlen : n.components = m.components) : Ensures Factored (Monzo.checked s n) :=
  checked (hlen ▸ h)

theorem map_exact {x : Except Fault Monzo} (h : Ensures Factored x) :
    Ensures Value.Factored (x.map .exact) := h.map fun _ hm => hm

theorem map_real (x : Except Fault Approx) : Ensures Value.Factored (x.map .real) := by
  cases x <;> trivial

/-! ### Construction -/

theorem ofRatioOver (q : ℚ) : Ensures Factored (Monzo.ofRatioOver s count q) := by
  rw [Ensures.iff_forall]
  intro m hm
  obtain ⟨hle, hchecked⟩ := ofRatioOver_eq_ok_iff.mp hm
  obtain ⟨hlen, hfree, -⟩ := split_spec (distinct_table.take count) q
  have hcomponents : (wholes (split (table.take count) q).1).length = count := by
    rw [length_wholes, hlen, length_take_table hle]
  refine Ensures.iff_forall.mp (checked ?_) m hchecked
  rw [components, hcomponents]
  exact hfree

theorem ofResidual (hres : m.residual = 1) : Ensures Factored (Monzo.checked s m) :=
  checked (hres ▸ Free.one _)

theorem ofFrequencyOver (q : ℚ) : Ensures Factored (Monzo.ofFrequencyOver s count q) :=
  (ofRatioOver q).bind fun _ hbase => checked_of_length hbase.free rfl

theorem ofTemperament (fraction equave : ℚ) :
    Ensures Factored (Monzo.ofTemperament s count fraction equave) := by
  refine (ofRatioOver equave).bind fun base hbase => ?_
  split
  · next residual hpow =>
    exact checked_of_length (m := base) (hbase.free.pow? (distinct_table.take _) hpow)
      (List.length_map _)
  · split
    · trivial
    · split
      · trivial
      · exact ofResidual rfl

/-! ### One operand -/

theorem neg (h : m.Factored) : Ensures Factored (m.neg s) := checked_of_length h.free.neg rfl

theorem abs (h : m.Factored) : Ensures Factored (m.abs s) := by
  refine checked_of_length (m := m) ?_ rfl
  show Free _ m.residual.abs
  rw [rat_abs_eq]
  exact h.free.abs

theorem inverse (h : m.Factored) : Ensures Value.Factored (m.inverse s) := by
  unfold Monzo.inverse
  split
  · trivial
  · exact map_exact (checked_of_length (h.free.inv (distinct_table.take _)) (List.length_map _))

theorem pitchAbs (h : m.Factored) : Ensures Value.Factored (m.pitchAbs s) := by
  refine h.abs.bind fun magnitude hm => ?_
  split
  · exact hm.inverse
  · exact hm

theorem irrationalPow (m : Monzo) (x : Float) : Ensures Value.Factored (m.irrationalPow s x) := by
  unfold Monzo.irrationalPow
  split
  · trivial
  · exact map_real _

theorem powRatio (h : m.Factored) (x : ℚ) : Ensures Value.Factored (m.powRatio s x) := by
  unfold Monzo.powRatio
  split
  · exact Ensures.bind_any fun y => irrationalPow m y
  · split
    · trivial
    · split
      · next residual hpow =>
        refine Ensures.bind_any fun y => Ensures.bind (P := Factored) ?_ fun power hp => hp
        exact checked_of_length (m := m) (h.free.pow? (distinct_table.take _) hpow)
          (List.length_map _)
      · refine Ensures.bind_any fun y => ?_
        split
        · exact irrationalPow m y
        · exact Ensures.bind (P := Factored) (ofResidual rfl) fun power hp => hp

theorem powNumber (h : m.Factored) (x : Number) : Ensures Value.Factored (m.powNumber s x) := by
  unfold Monzo.powNumber
  split
  · exact h.powRatio _
  · exact h.powRatio _
  · split
    · exact h.powRatio _
    · exact irrationalPow m _

theorem pow (h : m.Factored) (x : Value) : Ensures Value.Factored (m.pow s x) := by
  unfold Monzo.pow
  split
  · trivial
  · split
    · exact irrationalPow m _
    · split
      · exact h.powRatio _
      · exact irrationalPow m _

/-! ### Another basis -/

/-- What grows is factored, whatever it was before. -/
theorem grow (hlt : m.components < count) : Ensures Factored (m.grow s count) := by
  unfold Monzo.grow
  rw [Ensures.iff_forall]
  intro n hn
  obtain ⟨parts, hparts, hn⟩ := bind_eq_ok.mp hn
  obtain ⟨hle, rfl⟩ := factor_eq_ok_iff.mp hparts
  obtain ⟨hlen, hfree, -⟩ := split_spec (distinct_table.take count) m.residual
  refine Ensures.iff_forall.mp (checked ?_) n hn
  have hcomponents :
      (addExponents m.exps (split (table.take count) m.residual).1).length = count := by
    rw [length_addExponents, hlen, length_take_table hle]
    exact max_eq_right hlt.le
  rw [components, hcomponents]
  exact hfree

theorem widen (h : m.Factored) : Ensures Factored (m.widen s count) := by
  unfold Monzo.widen
  split
  · next hlt => exact grow hlt
  · exact h

theorem align (ha : a.Factored) (hb : b.Factored) :
    Ensures (fun c : Monzo × Monzo => c.1.Factored ∧ c.2.Factored ∧
      c.1.components = c.2.components) (Monzo.align s a b) := by
  rw [Ensures.iff_forall]
  rintro ⟨c, d⟩ h
  obtain ⟨hc, hd⟩ := components_of_align h
  obtain ⟨a', ha', h⟩ := bind_eq_ok.mp h
  obtain ⟨b', hb', h⟩ := bind_eq_ok.mp h
  cases h
  exact ⟨Ensures.iff_forall.mp ha.widen _ ha', Ensures.iff_forall.mp hb.widen _ hb',
    hc.trans hd.symm⟩

/-- Dropped exponents bring nothing but their own primes into the residual. -/
theorem dropInto {kept primes : List Nat} (hd : Distinct kept) (hprime : ∀ p ∈ primes, p.Prime)
    (hdisjoint : ∀ p ∈ primes, p ∉ kept) {es : List ℚ} {rest : Leftover}
    (hfree : Free kept rest.residual) :
    Ensures (fun r : Leftover => Free kept r.residual)
      (Monzo.dropInto (primes.map fun p => (p, Prime.cents p)) es rest) := by
  induction es generalizing primes with
  | nil => cases primes <;> exact hfree
  | cons e es ih =>
    cases primes with
    | nil => trivial
    | cons p primes =>
      rw [List.map_cons, Monzo.dropInto]
      refine (ih (fun q hq => hprime q (List.mem_cons_of_mem _ hq))
        fun q hq => hdisjoint q (List.mem_cons_of_mem _ hq)).bind fun r hr => ?_
      split
      · refine hr.mul hd fun q hq => ?_
        have hp : Distinct [p] :=
          ⟨by simpa using hprime p List.mem_cons_self, List.nodup_singleton p⟩
        have hone := padicValRat_powerProduct_of_notMem hp (hd.prime q hq)
          (fun hmem => hdisjoint p List.mem_cons_self (List.mem_singleton.mp hmem ▸ hq)) [e.num]
        rwa [powerProduct_cons, powerProduct_nil, mul_one] at hone
      · exact hr

theorem shrink (h : m.Factored) (hlt : count < m.components) :
    Ensures Factored (m.shrink s count) := by
  have hsub : table.take count ⊆ table.take m.components :=
    (List.take_prefix_take_left hlt.le).subset
  have hmeasures : Prime.measures.drop count =
      (table.drop count).map fun p => (p, Prime.cents p) := by
    rw [Prime.measures, List.map_drop]
  unfold Monzo.shrink
  rw [hmeasures]
  refine (dropInto (distinct_table.take count) (fun p hp => ?_) (fun p hp hmem => ?_)
    (h.free.mono hsub)).bind fun rest hrest => ?_
  · exact distinct_table.prime p (List.mem_of_mem_drop hp)
  · exact (List.disjoint_take_drop table_nodup le_rfl) hmem hp
  · refine checked ?_
    have hcomponents : (m.exps.take count).length = count := by
      rw [List.length_take]
      exact min_eq_left hlt.le
    rw [components, hcomponents]
    exact hrest

theorem resize (h : m.Factored) : Ensures Factored (m.resize s count) := by
  unfold Monzo.resize
  split
  · next hlt => exact h.shrink hlt
  · split
    · next hlt => exact grow hlt
    · exact checked h.free

theorem resizeTo (h : m.Factored) (count : Int) : Ensures Factored (m.resizeTo s count) := by
  unfold Monzo.resizeTo
  split
  · trivial
  · exact h.resize

/-- The vector of a geometric inverse has no residual at all. -/
theorem geometricInverse (m : Monzo) : Ensures Factored (m.geometricInverse s) := by
  refine Ensures.bind_any fun magnitude => ?_
  split
  · trivial
  · exact Ensures.bind_any fun vector => Ensures.bind_any fun x => ofResidual rfl

/-! ### Two operands -/

/-- Two factored values over a common basis, combined exponent by exponent. -/
theorem zipWith (op : ℚ → ℚ → ℚ) (time : ℚ) (cents : Float) (hlen : a.components = b.components)
    {q : ℚ} (hq : Free (table.take a.components) q) :
    Ensures Factored (Monzo.checked s { time, exps := a.exps.zipWith op b.exps, residual := q, cents }) := by
  refine checked_of_length (m := a) hq ?_
  rw [components, List.length_zipWith]
  exact min_eq_left hlen.le

theorem mul (ha : a.Factored) (hb : b.Factored) : Ensures Factored (a.mul s b) := by
  refine (ha.align hb).bind fun c hc => ?_
  obtain ⟨hc, hd, hlen⟩ := hc
  exact zipWith _ _ _ hlen (hc.free.mul (distinct_table.take _) (hlen ▸ hd.free))

theorem divNonzero (ha : a.Factored) (hb : b.Factored) : Ensures Factored (a.divNonzero s b) := by
  refine (ha.align hb).bind fun c hc => ?_
  obtain ⟨hc, hd, hlen⟩ := hc
  exact zipWith _ _ _ hlen (hc.free.div (distinct_table.take _) (hlen ▸ hd.free))

theorem gcd (ha : a.Factored) (hb : b.Factored) : Ensures Factored (a.gcd s b) := by
  refine (ha.align hb).bind fun c hc => ?_
  obtain ⟨hc, hd, hlen⟩ := hc
  exact zipWith _ _ _ hlen (hc.free.gcd (distinct_table.take _) (hlen ▸ hd.free))

theorem lcm (ha : a.Factored) (hb : b.Factored) : Ensures Factored (a.lcm s b) := by
  refine (ha.align hb).bind fun c hc => ?_
  obtain ⟨hc, hd, hlen⟩ := hc
  exact zipWith _ _ _ hlen (free_lcm (distinct_table.take _) hc.free (hlen ▸ hd.free))

theorem div (ha : a.Factored) (hb : b.Factored) : Ensures Value.Factored (a.div s b) := by
  unfold Monzo.div
  split
  · trivial
  · exact map_exact (ha.divNonzero hb)

/-- A ratio over the primes of two values is factored anew. -/
theorem ratioResult (a b : Monzo) (q : ℚ) : Ensures Value.Factored (Monzo.ratioResult s a b q) :=
  (ofRatioOver q).bind fun _ hm => ⟨hm.free, hm.vanish⟩

theorem add (a b : Monzo) : Ensures Value.Factored (a.add s b) := by
  refine Ensures.bind_any fun _ => ?_
  split
  · exact ratioResult a b _
  · exact map_real _

theorem sub (a b : Monzo) : Ensures Value.Factored (a.sub s b) := by
  refine Ensures.bind_any fun _ => ?_
  split
  · exact ratioResult a b _
  · exact map_real _

theorem modulo (a b : Monzo) (ceiling : Bool) : Ensures Value.Factored (a.modulo s b ceiling) := by
  unfold Monzo.modulo
  split
  · refine Ensures.bind_any fun _ => ?_
    split
    · exact map_real _
    · exact ratioResult a b _
  · exact map_real _

theorem divPower (ha : a.Factored) (hb : b.Factored) (k : Int) :
    Ensures Value.Factored (a.divPower s b k) := by
  refine (hb.powRatio _).bind fun power hp => ?_
  cases power with
  | exact p => exact ha.div hp
  | real x => trivial

theorem reduce (ha : a.Factored) (hb : b.Factored) (ceiling : Bool) :
    Ensures Value.Factored (a.reduce s b ceiling) := by
  unfold Monzo.reduce
  extract_lets period
  split
  · trivial
  · refine Ensures.bind_any fun periods => ?_
    split
    · exact ha.divPower hb _
    · split
      · exact ha.divPower hb _
      · exact map_real _

theorem roundTo (a : Monzo) (hb : b.Factored) : Ensures Value.Factored (a.roundTo s b) := by
  refine Ensures.bind_any fun _ => Ensures.bind_any fun quotient => ?_
  split
  · trivial
  · exact (ofRatioOver _).bind fun factor hf => map_exact (hb.mul hf)

theorem pitchRoundTo (a : Monzo) (hb : b.Factored) :
    Ensures Value.Factored (a.pitchRoundTo s b) := by
  refine Ensures.bind_any fun exponent => ?_
  split
  · trivial
  · exact hb.powRatio _

end Factored

end Monzo

/-! ## Runs of operations -/

namespace Value
open Monzo.Factored

variable {s : Settings} {v w : Value}

/-- How a value is made from plain numbers. -/
inductive Source
  | ratio (count : Nat) (q : ℚ)
  | temperament (count : Nat) (fraction equave : ℚ)
  | cents (count : Nat) (size : Float)
  | frequency (count : Nat) (q : ℚ)
  | subgroup (count : Nat) (exponents basis : List ℚ)
  | unity (count : Nat)

/-- The value made from plain numbers. -/
def Source.build (s : Settings) : Source → Except Fault Value
  | ratio count q => (Monzo.ofRatioOver s count q).map exact
  | temperament count fraction equave => (Monzo.ofTemperament s count fraction equave).map exact
  | cents count size => (Monzo.ofCents s count size).map exact
  | frequency count q => (Monzo.ofFrequencyOver s count q).map exact
  | subgroup count exponents basis => ofSubgroup s count exponents basis
  | unity count => (Monzo.unity s count).map exact

/-- The operations on one value. -/
inductive Unary
  | neg
  | inverse
  | abs
  | pitchAbs
  | powNumber (exponent : Number)
  | geometricInverse

/-- The result of an operation on one value. -/
def Unary.apply (s : Settings) (v : Value) : Unary → Except Fault Value
  | neg => v.neg s
  | inverse => v.inverse s
  | abs => v.abs s
  | pitchAbs => v.pitchAbs s
  | powNumber exponent => v.powNumber s exponent
  | geometricInverse => v.geometricInverse s

/-- The operations on two values. -/
inductive Binary
  | add
  | sub
  | mul
  | div
  | pow
  | modulo (ceiling : Bool)
  | reduce (ceiling : Bool)
  | project
  | lensAdd
  | lensSub
  | roundTo
  | pitchRoundTo
  | gcd
  | lcm

/-- The result of an operation on two values. -/
def Binary.apply (s : Settings) (v w : Value) : Binary → Except Fault Value
  | add => v.add s w
  | sub => v.sub s w
  | mul => v.mul s w
  | div => v.div s w
  | pow => v.pow s w
  | modulo ceiling => v.modulo s w ceiling
  | reduce ceiling => v.reduce s w ceiling
  | project => v.project s w
  | lensAdd => v.lensAdd s w
  | lensSub => v.lensSub s w
  | roundTo => v.roundTo s w
  | pitchRoundTo => v.pitchRoundTo s w
  | gcd => v.gcd s w
  | lcm => v.lcm s w

/-- The values that a run of operations reaches, each step under settings of its own. Real values
may join in at any time. -/
inductive Reached : Value → Prop
  | built {v : Value} (s : Settings) (source : Source) (h : source.build s = .ok v) : Reached v
  | real (a : Approx) : Reached (.real a)
  | unary {v w : Value} (s : Settings) (op : Unary) (hv : Reached v) (h : op.apply s v = .ok w) :
      Reached w
  | binary {v w u : Value} (s : Settings) (op : Binary) (hv : Reached v) (hw : Reached w)
      (h : op.apply s v w = .ok u) : Reached u
  | resized {m n : Monzo} (s : Settings) (count : Int) (hm : Reached (.exact m))
      (h : m.resizeTo s count = .ok n) : Reached (.exact n)

/-! ### What a step keeps -/

/-- An operation that keeps the form on exact values keeps it on all values. -/
theorem factored_lift {onExact : Monzo → Monzo → Except Fault Value}
    {onReal : Approx → Approx → Except Fault Approx}
    (h : ∀ m n : Monzo, m.Factored → n.Factored → Ensures Factored (onExact m n))
    (hv : v.Factored) (hw : w.Factored) : Ensures Factored (lift onExact onReal v w) := by
  cases v with
  | exact m =>
    cases w with
    | exact n => exact h m n hv hw
    | real b => exact map_real _
  | real a => cases w <;> exact map_real _

theorem factored_inverse (hv : v.Factored) : Ensures Factored (v.inverse s) := by
  cases v with
  | exact m => exact Monzo.Factored.inverse hv
  | real a => trivial

theorem factored_mul (hv : v.Factored) (hw : w.Factored) : Ensures Factored (v.mul s w) :=
  factored_lift (fun _ _ hm hn => map_exact (hm.mul hn)) hv hw

theorem factored_powNumber (hv : v.Factored) (x : Number) :
    Ensures Factored (v.powNumber s x) := by
  cases v with
  | exact m => exact Monzo.Factored.powNumber hv x
  | real a => exact Ensures.bind_any fun y => Ensures.bind_any fun power => trivial

theorem factored_pow (hv : v.Factored) (x : Value) : Ensures Factored (v.pow s x) := by
  cases v with
  | exact m => exact Monzo.Factored.pow hv x
  | real a =>
    unfold Value.pow
    split
    · next heq => cases heq
    · split
      · exact map_real _
      · trivial

/-- A harmonic sum or difference. -/
theorem factored_lens {op : Value → Value → Except Fault Value}
    (hop : ∀ v w, Value.Factored v → Value.Factored w → Ensures Factored (op v w)) (m n : Monzo)
    (hm : m.Factored) (hn : n.Factored) :
    Ensures Factored (do
      let total ← op (← m.inverse s) (← n.inverse s)
      inverse s total) :=
  hm.inverse.bind fun v hv => hn.inverse.bind fun w hw =>
    (hop v w hv hw).bind fun _ ht => factored_inverse ht

theorem factored_gcd (hv : v.Factored) (hw : w.Factored) : Ensures Factored (v.gcd s w) := by
  unfold Value.gcd
  split
  · exact map_exact (Monzo.Factored.gcd hv hw)
  · trivial

theorem factored_lcm (hv : v.Factored) (hw : w.Factored) : Ensures Factored (v.lcm s w) := by
  unfold Value.lcm
  split
  · exact map_exact (Monzo.Factored.lcm hv hw)
  · trivial

theorem factored_project (v : Value) (hw : w.Factored) : Ensures Factored (v.project s w) := by
  unfold Value.project
  extract_lets spanned
  have hspanned : Ensures Factored spanned := factored_pow hw _
  split
  · split
    · exact factored_powNumber hw _
    · exact hspanned
  · exact hspanned

theorem factored_mulPowers {count : Nat} (powers : List (ℚ × ℚ)) (hv : v.Factored) :
    Ensures Factored (mulPowers s count powers v) := by
  induction powers generalizing v with
  | nil => exact hv
  | cons power powers ih =>
    exact (ofRatioOver _).bind fun base hb => (hb.powRatio _).bind fun p hp =>
      (factored_mul hv hp).bind fun _ hproduct => ih hproduct

theorem factored_build (source : Source) : Ensures Factored (source.build s) := by
  cases source with
  | ratio count q => exact map_exact (ofRatioOver q)
  | temperament count fraction equave => exact map_exact (ofTemperament fraction equave)
  | cents count size => exact map_exact (ofResidual rfl)
  | frequency count q => exact map_exact (ofFrequencyOver q)
  | subgroup count exponents basis =>
    exact Ensures.bind (P := Monzo.Factored) (ofResidual rfl) fun one hone =>
      factored_mulPowers _ hone
  | unity count => exact map_exact (ofResidual rfl)

theorem factored_unary (op : Unary) (hv : v.Factored) : Ensures Factored (op.apply s v) := by
  cases op with
  | inverse => exact factored_inverse hv
  | powNumber x => exact factored_powNumber hv x
  | neg =>
    cases v with
    | exact m => exact map_exact (Monzo.Factored.neg hv)
    | real a => trivial
  | abs =>
    cases v with
    | exact m => exact map_exact (Monzo.Factored.abs hv)
    | real a => trivial
  | pitchAbs =>
    cases v with
    | exact m => exact Monzo.Factored.pitchAbs hv
    | real a => trivial
  | geometricInverse =>
    cases v with
    | exact m => exact map_exact (Monzo.Factored.geometricInverse m)
    | real a => trivial

theorem factored_binary (op : Binary) (hv : v.Factored) (hw : w.Factored) :
    Ensures Factored (op.apply s v w) := by
  have hadd : ∀ v w, Value.Factored v → Value.Factored w → Ensures Factored (Value.add s v w) :=
    fun _ _ => factored_lift fun m n _ _ => Monzo.Factored.add m n
  have hsub : ∀ v w, Value.Factored v → Value.Factored w → Ensures Factored (Value.sub s v w) :=
    fun _ _ => factored_lift fun m n _ _ => Monzo.Factored.sub m n
  cases op with
  | add => exact hadd v w hv hw
  | sub => exact hsub v w hv hw
  | mul => exact factored_mul hv hw
  | div =>
    show Ensures Factored (v.div s w)
    exact factored_lift (fun _ _ hm hn => hm.div hn) hv hw
  | pow => exact factored_pow hv w
  | modulo ceiling =>
    show Ensures Factored (v.modulo s w ceiling)
    exact factored_lift (fun m n _ _ => Monzo.Factored.modulo m n ceiling) hv hw
  | reduce ceiling =>
    show Ensures Factored (v.reduce s w ceiling)
    exact factored_lift (fun _ _ hm hn => hm.reduce hn ceiling) hv hw
  | project => exact factored_project v hw
  | lensAdd => exact factored_lift (factored_lens hadd) hv hw
  | lensSub => exact factored_lift (factored_lens hsub) hv hw
  | roundTo => exact factored_lift (fun m _ _ hn => Monzo.Factored.roundTo m hn) hv hw
  | pitchRoundTo => exact factored_lift (fun m _ _ hn => Monzo.Factored.pitchRoundTo m hn) hv hw
  | gcd => exact factored_gcd hv hw
  | lcm => exact factored_lcm hv hw

/-- Every run keeps the form. -/
theorem Reached.factored (h : Reached v) : v.Factored := by
  induction h with
  | built s source h => exact Ensures.iff_forall.mp (factored_build source) _ h
  | real a => trivial
  | unary s op hv h ih => exact Ensures.iff_forall.mp (factored_unary op ih) _ h
  | binary s op hv hw h ihv ihw => exact Ensures.iff_forall.mp (factored_binary op ihv ihw) _ h
  | resized s count hm h ih => exact Ensures.iff_forall.mp (Monzo.Factored.resizeTo ih count) _ h

end Value

end Intonation
