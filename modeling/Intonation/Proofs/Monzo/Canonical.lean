import Intonation.Monzo.Arithmetic
import Intonation.Proofs.Monzo.Bounds
import Intonation.Proofs.Prime.Factor

/-!
# Ratios as exact values

A value built from a ratio has whole exponents of the tracked primes and a residual that none of
them divides. Such a canonical value is determined by its ratio, unless the ratio is zero, and
building a value from that ratio succeeds again.

## Main definitions

* `Settings.primes`: the tracked primes
* `Monzo.Canonical`: whole exponents and a residual without tracked primes, within the bounds

## Main statements

* `canonical_ofRatio`: values built from ratios are canonical
* `Canonical.exists_ofRatio`: the ratio of a canonical value has a value
* `Canonical.components_eq`: equal ratios have equal components
* `Canonical.neg`, `Canonical.mul`, `Canonical.divNonzero`: arithmetic
-/

namespace Intonation

/-- The primes that values track. -/
def Settings.primes (s : Settings) : List Nat := Prime.table.take s.numberOfComponents

theorem Settings.distinct_primes (s : Settings) : Prime.Distinct s.primes :=
  Prime.distinct_table.take _

namespace Monzo
open Double Intonation.Prime

variable {s : Settings} {a b m n : Monzo}

/-- Integers as ratios. -/
def wholes (ns : List Int) : List ℚ := ns.map fun (n : Int) => (n : ℚ)

/-- A value without correction and within the bounds, with whole exponents of the tracked primes
and a residual that none of them divides. -/
structure Canonical (s : Settings) (m : Monzo) : Prop where
  tracked : s.numberOfComponents ≤ tableSize
  uncorrected : m.cents == 0
  bounded : boundsFault? s m = none
  free : Free s.primes m.residual
  whole : ∃ ns, ns.length = s.numberOfComponents ∧ m.exps = wholes ns

/-! ## Ratios -/

theorem length_wholes (ns : List Int) : (wholes ns).length = ns.length := List.length_map _

theorem map_num_wholes (ns : List Int) : (wholes ns).map Rat.num = ns := by
  rw [wholes, List.map_map]
  exact List.map_id ns

theorem primeProduct_eq_powerProduct (primes : List Nat) (es : List ℚ) :
    primeProduct primes es = powerProduct primes (es.map Rat.num) := by
  induction primes generalizing es with
  | nil => rfl
  | cons p primes ih =>
    cases es with
    | nil => simp [primeProduct]
    | cons e es =>
      rw [primeProduct, List.map_cons, powerProduct_cons, ih]
      split
      · next he => simp [he]
      · rfl

/-- The ratio of a value in terms of the tracked primes. -/
theorem ratio_eq_of_wholes {ns : List Int} (hlen : ns.length = s.numberOfComponents)
    (hexps : m.exps = wholes ns) : m.ratio = m.residual * powerProduct s.primes ns := by
  rw [ratio, hexps, primeProduct_eq_powerProduct, map_num_wholes, Settings.primes,
    powerProduct_take _ _ hlen.le]

namespace Canonical

theorem length_primes (h : Canonical s m) : s.primes.length = s.numberOfComponents := by
  rw [Settings.primes, List.length_take, length_table]
  exact min_eq_left h.tracked

theorem components_length (h : Canonical s m) : m.components = s.numberOfComponents := by
  obtain ⟨ns, hlen, hexps⟩ := h.whole
  rw [components, hexps, length_wholes, hlen]

theorem isFractional (h : Canonical s m) : m.isFractional := by
  obtain ⟨ns, -, hexps⟩ := h.whole
  simp only [Monzo.isFractional, isUncorrected, h.uncorrected, hexps, wholes, Bool.true_and,
    List.all_eq_true, List.mem_map, decide_eq_true_eq]
  rintro e ⟨n, -, rfl⟩
  exact Rat.den_intCast n

theorem toRatio (h : Canonical s m) : m.toRatio = .ok m.ratio := by
  rw [Monzo.toRatio, if_pos h.isFractional]

theorem ratio_eq_zero_iff (h : Canonical s m) : m.ratio = 0 ↔ m.residual = 0 := by
  obtain ⟨ns, hlen, hexps⟩ := h.whole
  rw [ratio_eq_of_wholes hlen hexps, mul_eq_zero,
    or_iff_left (powerProduct_pos s.distinct_primes ns).ne']

theorem ratio_pos_iff (h : Canonical s m) : 0 < m.ratio ↔ 0 < m.residual := by
  obtain ⟨ns, hlen, hexps⟩ := h.whole
  rw [ratio_eq_of_wholes hlen hexps, mul_pos_iff_of_pos_right
    (powerProduct_pos s.distinct_primes ns)]

/-- The ratio of an integral value is an integer. -/
theorem num_ratio (h : Canonical s m) (hm : m.isIntegral) : (m.ratio.num : ℚ) = m.ratio := by
  obtain ⟨ns, hlen, hexps⟩ := h.whole
  rw [isIntegral, hexps, Bool.and_eq_true, Bool.and_eq_true, decide_eq_true_eq,
    List.all_eq_true] at hm
  obtain ⟨⟨-, hden⟩, hpos⟩ := hm
  have hns : ∀ n ∈ ns, 0 ≤ n := by
    intro n hn
    have hcast := of_decide_eq_true (hpos n (List.mem_map_of_mem hn))
    exact_mod_cast hcast
  obtain ⟨k, hk⟩ : ∃ k : Nat, powerProduct s.primes ns = k := powerProduct_eq_natCast hns
  have hratio : m.ratio = ((m.residual.num * k : Int) : ℚ) := by
    rw [ratio_eq_of_wholes hlen hexps, hk, ← (Rat.den_eq_one_iff _).mp hden]
    push_cast
    rw [Rat.num_intCast]
  rw [hratio, Rat.num_intCast]

/-- Canonical values of one ratio that is not zero have the same exponents and residual. -/
theorem components_eq (ha : Canonical s a) (hb : Canonical s b) (h : a.ratio = b.ratio)
    (h0 : a.ratio ≠ 0) : a.exps = b.exps ∧ a.residual = b.residual := by
  obtain ⟨ns, hlen, hexps⟩ := ha.whole
  obtain ⟨ns', hlen', hexps'⟩ := hb.whole
  have hra : a.residual ≠ 0 := fun h1 => h0 (ha.ratio_eq_zero_iff.mpr h1)
  have hrb : b.residual ≠ 0 := fun h1 => h0 (h ▸ hb.ratio_eq_zero_iff.mpr h1)
  have hsa := split_eq_of_eq_mul s.distinct_primes (hlen.trans ha.length_primes.symm) hra ha.free
    (ratio_eq_of_wholes hlen hexps)
  have hsb := split_eq_of_eq_mul s.distinct_primes (hlen'.trans ha.length_primes.symm) hrb hb.free
    (ratio_eq_of_wholes hlen' hexps')
  rw [h, hsb, Prod.mk.injEq] at hsa
  rw [hexps, hexps', hsa.1]
  exact ⟨rfl, hsa.2.symm⟩

end Canonical

/-! ## Building values -/

theorem factor_eq_ok_iff {count : Nat} {q : ℚ} {parts : List Int × ℚ} :
    factor count q = .ok parts ↔
      count ≤ tableSize ∧ parts = split (table.take count) q := by
  unfold factor basis
  split
  · next h => simp [Except.map, not_le.mpr h]
  · next h => simp [Except.map, not_lt.mp h, eq_comm]

theorem factor_of_lt {count : Nat} (h : tableSize < count) (q : ℚ) :
    factor count q = .error .tableExhausted := by
  rw [factor, basis, if_pos h]
  rfl

/-- Nothing is widened over more primes than the table has. -/
theorem widen_of_lt {count : Nat} (hlt : m.components < count) (h : tableSize < count) :
    m.widen s count = .error .tableExhausted := by
  rw [Monzo.widen, if_pos hlt, Monzo.grow, factor_of_lt h]
  rfl

/-- The value of a ratio, over primes that the table has. -/
theorem ofRatioOver_eq {count : Nat} {q : ℚ} (hle : count ≤ tableSize) :
    ofRatioOver s count q = checked s
      { exps := wholes (split (table.take count) q).1
        residual := (split (table.take count) q).2 } := by
  unfold ofRatioOver
  rw [factor_eq_ok_iff.mpr ⟨hle, rfl⟩]
  rfl

theorem ofRatioOver_eq_ok_iff {count : Nat} {q : ℚ} : ofRatioOver s count q = .ok m ↔
    count ≤ tableSize ∧ checked s
      { exps := wholes (split (table.take count) q).1
        residual := (split (table.take count) q).2 } = .ok m := by
  constructor
  · intro h
    unfold ofRatioOver at h
    cases hf : factor count q with
    | error e => rw [hf] at h; cases h
    | ok parts =>
      obtain ⟨hle, rfl⟩ := factor_eq_ok_iff.mp hf
      rw [hf] at h
      exact ⟨hle, h⟩
  · rintro ⟨hle, h⟩
    rwa [ofRatioOver_eq hle]

theorem residual_pos {count : Nat} {q : ℚ} (hq : 0 < q) : 0 < (split (table.take count) q).2 := by
  obtain ⟨-, -, hproduct⟩ := split_spec (distinct_table.take count) q
  rw [← hproduct] at hq
  exact pos_of_mul_pos_left hq (powerProduct_pos (distinct_table.take count) _).le

/-- A value built from a ratio is canonical and denotes the ratio. -/
theorem canonical_ofRatio {q : ℚ} (h : ofRatio s q = .ok m) :
    Canonical s m ∧ m.ratio = q ∧ m.time = 0 := by
  obtain ⟨htracked, hchecked⟩ := ofRatioOver_eq_ok_iff.mp h
  obtain ⟨hbounded, rfl⟩ := checked_eq_ok_iff.mp hchecked
  obtain ⟨hlen, hfree, hprod⟩ := split_spec s.distinct_primes q
  have hlen' : (split s.primes q).1.length = s.numberOfComponents := by
    rw [hlen, Settings.primes, List.length_take, length_table]
    exact min_eq_left htracked
  exact ⟨⟨htracked, zero_beq_zero, hbounded, hfree, _, hlen', rfl⟩,
    (ratio_eq_of_wholes hlen' rfl).trans hprod, rfl⟩

/-- The ratio of a canonical value has a value of its own. -/
theorem Canonical.exists_ofRatio (h : Canonical s m) : ∃ w, ofRatio s m.ratio = .ok w := by
  obtain ⟨ns, hlen, hexps⟩ := h.whole
  refine ⟨_, ofRatioOver_eq_ok_iff.mpr ⟨h.tracked, checked_eq_ok_iff.mpr ⟨?_, rfl⟩⟩⟩
  have hb := boundsFault?_eq_none_iff.mp h.bounded
  by_cases h0 : m.residual = 0
  · rw [h.ratio_eq_zero_iff.mpr h0]
    refine bounded_of_uncorrected (exponentFault?_eq_none_of_zero _ ?_) ?_ zero_beq_zero
    · simp [split, wholes]
    · simpa [split, h0] using hb.2.bits_le
  · have hsplit := split_eq_of_eq_mul s.distinct_primes (hlen.trans h.length_primes.symm) h0 h.free
      (ratio_eq_of_wholes hlen hexps)
    rw [Settings.primes] at hsplit
    rw [hsplit]
    exact bounded_congr hexps rfl (.of_beq_zero h.uncorrected zero_beq_zero) h.bounded

theorem Canonical.withTime (h : Canonical s m) (t : ℚ) : Canonical s { m with time := t } :=
  ⟨h.tracked, h.uncorrected, h.bounded, h.free, h.whole⟩

/-! ## Arithmetic -/

theorem wholes_zipWith (op : Int → Int → Int) (op' : ℚ → ℚ → ℚ)
    (h : ∀ x y : Int, ((op x y : Int) : ℚ) = op' x y) (ns ks : List Int) :
    (wholes ns).zipWith op' (wholes ks) = wholes (ns.zipWith op ks) := by
  rw [wholes, wholes, wholes, List.zipWith_map, List.map_zipWith]
  congr 1
  funext x y
  exact (h x y).symm

theorem wholes_map (op : Int → Int) (op' : ℚ → ℚ) (h : ∀ x : Int, ((op x : Int) : ℚ) = op' x)
    (ns : List Int) : (wholes ns).map op' = wholes (ns.map op) := by
  rw [wholes, wholes, List.map_map, List.map_map]
  congr 1
  funext x
  exact (h x).symm

theorem align_of_components_eq (h : a.components = b.components) : align s a b = .ok (a, b) := by
  unfold align widen
  rw [if_neg (by omega), if_neg (by omega)]
  rfl

namespace Canonical

theorem align (ha : Canonical s a) (hb : Canonical s b) : Monzo.align s a b = .ok (a, b) :=
  align_of_components_eq (ha.components_length.trans hb.components_length.symm)

/-- A value with other components is canonical when it is within the bounds. -/
theorem of_checked {ns : List Int} (h : Canonical s a) (hn : checked s n = .ok m)
    (hcents : n.cents == 0) (hfree : Free s.primes n.residual)
    (hlen : ns.length = s.numberOfComponents) (hexps : n.exps = wholes ns) :
    Canonical s m ∧ m.ratio = n.residual * powerProduct s.primes ns ∧ m.time = n.time := by
  obtain ⟨hbounded, rfl⟩ := checked_eq_ok_iff.mp hn
  exact ⟨⟨h.tracked, hcents, hbounded, hfree, ns, hlen, hexps⟩, ratio_eq_of_wholes hlen hexps, rfl⟩

theorem neg (ha : Canonical s a) (h : a.neg s = .ok m) :
    Canonical s m ∧ m.ratio = -a.ratio ∧ m.time = a.time := by
  obtain ⟨ns, hlen, hexps⟩ := ha.whole
  obtain ⟨hm, hratio, htime⟩ := of_checked ha h ha.uncorrected ha.free.neg hlen hexps
  refine ⟨hm, ?_, htime⟩
  rw [hratio, ratio_eq_of_wholes hlen hexps, neg_mul]

theorem abs (ha : Canonical s a) (h : a.abs s = .ok m) :
    Canonical s m ∧ m.ratio = |a.ratio| ∧ m.time = a.time := by
  obtain ⟨ns, hlen, hexps⟩ := ha.whole
  have hfree : Free s.primes a.residual.abs := by
    rw [rat_abs_eq]
    exact ha.free.abs
  obtain ⟨hm, hratio, htime⟩ := of_checked ha h ha.uncorrected hfree hlen hexps
  refine ⟨hm, ?_, htime⟩
  rw [hratio, ratio_eq_of_wholes hlen hexps, abs_mul,
    abs_of_pos (powerProduct_pos s.distinct_primes ns), rat_abs_eq]

theorem reciprocal (ha : Canonical s a) (h : checked s a.reciprocal = .ok m) :
    Canonical s m ∧ m.ratio = a.ratio⁻¹ ∧ m.time = -a.time := by
  obtain ⟨ns, hlen, hexps⟩ := ha.whole
  have hlen' : (ns.map fun n => -n).length = s.numberOfComponents := by
    rw [List.length_map, hlen]
  have hexps' : a.reciprocal.exps = wholes (ns.map fun n => -n) := by
    show a.exps.map _ = _
    rw [hexps]
    exact wholes_map (fun n => -n) _ (fun x => by push_cast; rfl) ns
  obtain ⟨hm, hratio, htime⟩ := of_checked ha h (neg_beq_zero ha.uncorrected)
    (ha.free.inv s.distinct_primes) hlen' hexps'
  refine ⟨hm, ?_, htime⟩
  rw [hratio, ratio_eq_of_wholes hlen hexps, mul_inv, powerProduct_map_neg]
  rfl

theorem mul (ha : Canonical s a) (hb : Canonical s b) (h : a.mul s b = .ok m) :
    Canonical s m ∧ m.ratio = a.ratio * b.ratio ∧ m.time = a.time + b.time := by
  obtain ⟨ns, hlen, hexps⟩ := ha.whole
  obtain ⟨ks, hlenb, hexpsb⟩ := hb.whole
  unfold Monzo.mul at h
  rw [ha.align hb] at h
  have hlen' : (ns.zipWith (· + ·) ks).length = s.numberOfComponents := by
    rw [List.length_zipWith, hlen, hlenb, min_self]
  have hexps' : a.exps.zipWith (· + ·) b.exps = wholes (ns.zipWith (· + ·) ks) := by
    rw [hexps, hexpsb]
    exact wholes_zipWith _ _ (fun x y => by push_cast; rfl) ns ks
  obtain ⟨hm, hratio, htime⟩ := of_checked ha h (add_beq_zero ha.uncorrected hb.uncorrected)
    (.mul s.distinct_primes ha.free hb.free) hlen' hexps'
  refine ⟨hm, ?_, htime⟩
  rw [hratio, ratio_eq_of_wholes hlen hexps, ratio_eq_of_wholes hlenb hexpsb, powerProduct_zipWith_add s.distinct_primes _ _
    (hlen.trans hlenb.symm)]
  ring

theorem divNonzero (ha : Canonical s a) (hb : Canonical s b) (h : a.divNonzero s b = .ok m) :
    Canonical s m ∧ m.ratio = a.ratio / b.ratio ∧ m.time = a.time - b.time := by
  obtain ⟨ns, hlen, hexps⟩ := ha.whole
  obtain ⟨ks, hlenb, hexpsb⟩ := hb.whole
  unfold Monzo.divNonzero at h
  rw [ha.align hb] at h
  have hneg : ns.zipWith (· - ·) ks = ns.zipWith (· + ·) (ks.map fun k => -k) := by
    rw [List.zipWith_map_right]
    rfl
  have hlen' : (ns.zipWith (· - ·) ks).length = s.numberOfComponents := by
    rw [List.length_zipWith, hlen, hlenb, min_self]
  have hexps' : a.exps.zipWith (· - ·) b.exps = wholes (ns.zipWith (· - ·) ks) := by
    rw [hexps, hexpsb]
    exact wholes_zipWith _ _ (fun x y => by push_cast; rfl) ns ks
  obtain ⟨hm, hratio, htime⟩ := of_checked ha h (sub_beq_zero ha.uncorrected hb.uncorrected)
    (.div s.distinct_primes ha.free hb.free) hlen' hexps'
  refine ⟨hm, ?_, htime⟩
  rw [hratio, ratio_eq_of_wholes hlen hexps, ratio_eq_of_wholes hlenb hexpsb, hneg, powerProduct_zipWith_add s.distinct_primes _ _
    (by rw [List.length_map, hlen, hlenb]), powerProduct_map_neg]
  show a.residual / b.residual * _ = _
  rw [div_eq_mul_inv, div_eq_mul_inv, mul_inv]
  ring

end Canonical

end Monzo

end Intonation
