import Intonation.Literal.Algebra
import Intonation.Proofs.Literal.RatioPower

/-!
# Values that are vectors of exponents

A value without time units, residual and correction is its vector of exponents. Products,
quotients and powers of such values are sums, differences and multiples of their vectors; missing
exponents count as zero.

## Main definitions

* `padded`: a vector with zeros up to a length
* `Monzo.IsVector`: a value that is a vector, within the bounds

## Main statements

* `zipEntries_eq_zipWith`: combining entries with zeros in place of missing ones
* `IsVector.mul`, `IsVector.div`, `IsVector.inverse`, `IsVector.powRatio`: arithmetic
* `IsVector.dot`, `IsVector.geometricInverse`: pairing
-/

namespace Intonation
open Double

/-- A vector with zeros up to a length. -/
def padded (count : Nat) (es : List ℚ) : List ℚ := es ++ List.replicate (count - es.length) 0

theorem padded_of_le {count : Nat} {es : List ℚ} (h : count ≤ es.length) : padded count es = es := by
  rw [padded, Nat.sub_eq_zero_of_le h, List.replicate_zero, List.append_nil]

theorem padded_succ_cons (count : Nat) (e : ℚ) (es : List ℚ) :
    padded (count + 1) (e :: es) = e :: padded count es := by
  simp [padded]

theorem padded_nil (count : Nat) : padded count [] = List.replicate count 0 := by simp [padded]

theorem length_padded (count : Nat) (es : List ℚ) :
    (padded count es).length = max count es.length := by
  rw [padded, List.length_append, List.length_replicate]
  omega

theorem getD_padded (count : Nat) (es : List ℚ) (k : Nat) :
    (padded count es).getD k 0 = es.getD k 0 := by
  rw [padded, List.getD_eq_getElem?_getD, List.getD_eq_getElem?_getD, List.getElem?_append]
  split
  · rfl
  · next hk =>
    rw [List.getElem?_eq_none (not_lt.mp hk), List.getElem?_replicate]
    split <;> rfl

/-- The zeros at the end of a vector are there again when it is filled up. -/
theorem padded_trimZeros (es : List ℚ) : padded es.length (Monzo.trimZeros es) = es := by
  have hsplit := congrArg List.reverse
    (List.takeWhile_append_dropWhile (p := fun e : ℚ => decide (e = 0)) (l := es.reverse))
  rw [List.reverse_append, List.reverse_reverse] at hsplit
  have hlen := congrArg List.length hsplit
  rw [List.length_append] at hlen
  have hzeros : (es.reverse.takeWhile fun e => decide (e = 0)).reverse =
      List.replicate (es.length - (Monzo.trimZeros es).length) 0 := by
    refine List.eq_replicate_iff.mpr ⟨?_, fun e he => ?_⟩
    · rw [Monzo.trimZeros]
      omega
    · exact of_decide_eq_true (List.all_eq_true.mp List.all_takeWhile e (List.mem_reverse.mp he))
  rw [padded, ← hzeros]
  exact hsplit

theorem map_padded {f : ℚ → ℚ} (hf : f 0 = 0) (count : Nat) (es : List ℚ) :
    (padded count es).map f = padded count (es.map f) := by
  simp [padded, hf]

namespace Literal

theorem zipEntries_nil {op : ℚ → ℚ → ℚ} : zipEntries op [] [] = [] := by rw [zipEntries]

theorem zipEntries_nil_left {op : ℚ → ℚ → ℚ} (ys : List ℚ) :
    zipEntries op [] ys = ys.map (op 0) := by
  induction ys with
  | nil => exact zipEntries_nil
  | cons y ys ih => rw [zipEntries, ih, List.map_cons]

theorem zipEntries_nil_right {op : ℚ → ℚ → ℚ} (xs : List ℚ) :
    zipEntries op xs [] = xs.map (op · 0) := by
  induction xs with
  | nil => exact zipEntries_nil
  | cons x xs ih => rw [zipEntries, ih, List.map_cons]

theorem zipEntries_eq_zipWith (op : ℚ → ℚ → ℚ) (xs ys : List ℚ) :
    zipEntries op xs ys = (padded ys.length xs).zipWith op (padded xs.length ys) := by
  induction xs generalizing ys with
  | nil =>
    rw [zipEntries_nil_left, padded_nil, List.length_nil, padded_of_le (Nat.zero_le _)]
    induction ys with
    | nil => rfl
    | cons y ys ih => rw [List.length_cons, List.replicate_succ, List.zipWith_cons_cons, ← ih,
        List.map_cons]
  | cons x xs ih =>
    cases ys with
    | nil =>
      rw [zipEntries_nil_right, padded_nil, List.length_nil, padded_of_le (Nat.zero_le _)]
      clear ih
      generalize x :: xs = zs
      induction zs with
      | nil => rfl
      | cons z zs ih => rw [List.length_cons, List.replicate_succ, List.zipWith_cons_cons, ← ih,
          List.map_cons]
    | cons y ys =>
      rw [zipEntries, ih, List.length_cons, List.length_cons, padded_succ_cons, padded_succ_cons,
        List.zipWith_cons_cons]

theorem zipEntries_of_length_eq {op : ℚ → ℚ → ℚ} {xs ys : List ℚ} (h : xs.length = ys.length) :
    zipEntries op xs ys = xs.zipWith op ys := by
  rw [zipEntries_eq_zipWith, padded_of_le h.ge, padded_of_le h.le]

theorem length_zipEntries (op : ℚ → ℚ → ℚ) (xs ys : List ℚ) :
    (zipEntries op xs ys).length = max xs.length ys.length := by
  rw [zipEntries_eq_zipWith, List.length_zipWith, length_padded, length_padded]
  omega

/-- Entries may be combined before or after zeros are added. -/
theorem zipEntries_padded {f : ℚ → ℚ → ℚ} (h0 : f 0 0 = 0) (count : Nat) (xs ys : List ℚ) :
    zipEntries f (padded count xs) (padded count ys) = padded count (zipEntries f xs ys) := by
  induction count generalizing xs ys with
  | zero => rw [padded_of_le (Nat.zero_le _), padded_of_le (Nat.zero_le _),
      padded_of_le (Nat.zero_le _)]
  | succ count ih =>
    have hnil : ∀ n, padded (n + 1) [] = 0 :: padded n [] := by
      intro n
      rw [padded_nil, padded_nil, List.replicate_succ]
    cases xs with
    | nil =>
      cases ys with
      | nil => rw [zipEntries_nil, hnil, zipEntries, h0, ih, zipEntries_nil]
      | cons y ys => rw [hnil, padded_succ_cons, zipEntries, zipEntries, padded_succ_cons, ih]
    | cons x xs =>
      cases ys with
      | nil => rw [hnil, padded_succ_cons, zipEntries, zipEntries, padded_succ_cons, ih]
      | cons y ys => rw [padded_succ_cons, padded_succ_cons, zipEntries, zipEntries,
          padded_succ_cons, ih]

/-- Multiples of one vector are combined by their factors. -/
theorem zipEntries_map_mul {op : ℚ → ℚ → ℚ} (hop : ∀ x y z, op (z * x) (z * y) = z * op x y)
    (es : List ℚ) (x y : ℚ) :
    zipEntries op (es.map (· * x)) (es.map (· * y)) = es.map (· * op x y) := by
  induction es with
  | nil => exact zipEntries_nil
  | cons e es ih => rw [List.map_cons, List.map_cons, zipEntries, ih, hop, List.map_cons]

end Literal

namespace Monzo

variable {s t u : Settings} {a b m n : Monzo} {es fs : List ℚ} {v : Value}

theorem length_addExponents (es : List ℚ) (ns : List Int) :
    (addExponents es ns).length = max es.length ns.length := by
  induction es generalizing ns with
  | nil =>
    induction ns with
    | nil => rfl
    | cons n ns ih =>
      rw [addExponents, List.length_cons, ih]
      simp
  | cons e es ih =>
    cases ns with
    | nil => simp [addExponents]
    | cons n ns =>
      rw [addExponents, List.length_cons, ih, List.length_cons, List.length_cons]
      omega

/-- A value that is its vector of exponents. -/
structure IsVector (s : Settings) (m : Monzo) (es : List ℚ) : Prop where
  time : m.time = 0
  exps : m.exps = es
  residual : m.residual = 1
  uncorrected : m.cents == 0
  bounded : boundsFault? s m = none

theorem isFlat_iff : isFlat es ↔ es = List.replicate es.length 0 := by
  simp [isFlat, List.eq_replicate_iff]

theorem isEqualTemperament_iff :
    m.isEqualTemperament ↔ m.time = 0 ∧ m.cents == 0 ∧ m.residual = 1 := by
  simp [isEqualTemperament, isScalar, isUncorrected, and_assoc]

namespace IsVector

theorem of_checked (h : checked s n = .ok m) (ht : n.time = 0) (he : n.exps = es)
    (hr : n.residual = 1) (hc : n.cents == 0) : IsVector s m es := by
  obtain ⟨hb, rfl⟩ := checked_eq_ok_iff.mp h
  exact ⟨ht, he, hr, hc, hb⟩

theorem coincide (hm : IsVector s m es) (hn : IsVector s n es) : Coincide m n :=
  ⟨hm.time.trans hn.time.symm, hm.exps.trans hn.exps.symm, hm.residual.trans hn.residual.symm,
    .of_beq_zero hm.uncorrected hn.uncorrected⟩

/-- A vector within the bounds can be built. -/
theorem checked_eq (h : IsVector s m es) :
    checked s { exps := es } = .ok { exps := es } ∧ IsVector s { exps := es } es := by
  have hb : boundsFault? s { exps := es } = none := by
    refine bounded_congr h.exps h.residual ?_ h.bounded
    exact .of_beq_zero h.uncorrected zero_beq_zero
  exact ⟨checked_eq_ok_iff.mpr ⟨hb, rfl⟩, rfl, rfl, rfl, zero_beq_zero, hb⟩

/-- Parts of a vector within the bounds, with or without zeros behind them, are within the
bounds. -/
theorem padded_of_append (h : IsVector s m (es ++ fs)) (count : Nat) :
    IsVector s { exps := padded count es } (padded count es) := by
  obtain ⟨hexps, hrest⟩ := boundsFault?_eq_none_iff.mp h.bounded
  rw [h.exps] at hexps
  refine ⟨rfl, rfl, rfl, zero_beq_zero, bounded_of_uncorrected ?_ ?_ zero_beq_zero⟩
  · exact exponentFault?_append_zeros _ (exponentFault?_of_append _ hexps)
      fun e he => List.eq_of_mem_replicate he
  · exact h.residual ▸ hrest.bits_le

theorem extended (h : IsVector s m es) (count : Nat) :
    IsVector s { exps := padded count es } (padded count es) :=
  @padded_of_append s m es [] (by rwa [List.append_nil]) count

/-- The reversed vector is within the bounds. -/
theorem reversed (h : IsVector s m es) :
    IsVector s { exps := es.map fun e => -e } (es.map fun e => -e) := by
  obtain ⟨hexps, hrest⟩ := boundsFault?_eq_none_iff.mp h.bounded
  rw [h.exps] at hexps
  refine ⟨rfl, rfl, rfl, zero_beq_zero, ?_⟩
  exact bounded_of_uncorrected (exponentFault?_map_neg hexps) (h.residual ▸ hrest.bits_le)
    zero_beq_zero

theorem isUncorrected (h : IsVector s m es) : m.isUncorrected = true := h.uncorrected

theorem isScalar (h : IsVector s m es) : m.isScalar = true := decide_eq_true h.time

theorem isEqualTemperament (h : IsVector s m es) : m.isEqualTemperament = true := by
  rw [Monzo.isEqualTemperament, h.isScalar, h.isUncorrected, h.residual]
  rfl

/-- A rational power of a ratio over the tracked primes is its vector of exponents. -/
theorem of_isEqualTemperament (h : m.isEqualTemperament) (hbounded : boundsFault? s m = none) :
    IsVector s m m.exps := by
  obtain ⟨htime, hcents, hres⟩ := isEqualTemperament_iff.mp h
  exact ⟨htime, rfl, hres, hcents, hbounded⟩

theorem isUnity_iff (h : IsVector s m es) : m.isUnity ↔ ∀ e ∈ es, e = 0 := by
  rw [isUnity, h.isEqualTemperament, Bool.true_and, isFlat, List.all_eq_true, h.exps]
  simp only [decide_eq_true_eq]

theorem components (h : IsVector s m es) : m.components = es.length := by
  rw [Monzo.components, h.exps]

/-! ## A common basis -/

theorem addExponents_replicate_zero (es : List ℚ) (count : Nat) :
    addExponents es (List.replicate count 0) = padded count es := by
  induction es generalizing count with
  | nil =>
    rw [padded_nil]
    induction count with
    | zero => rfl
    | succ count ih => rw [List.replicate_succ, addExponents, ih, List.replicate_succ, Int.cast_zero]
  | cons e es ih =>
    cases count with
    | zero =>
      rw [padded_of_le (Nat.zero_le _)]
      rfl
    | succ count => rw [List.replicate_succ, addExponents, ih, Int.cast_zero, add_zero,
        padded_succ_cons]

theorem factor_one {count : Nat} {parts : List Int × ℚ} (h : factor count 1 = .ok parts) :
    parts = (List.replicate count 0, 1) := by
  obtain ⟨hle, rfl⟩ := factor_eq_ok_iff.mp h
  refine Prime.split_eq_of_eq_mul (Prime.distinct_table.take count) ?_ one_ne_zero (.one _) ?_
  · rw [List.length_replicate, List.length_take, Prime.length_table]
    exact (min_eq_left hle).symm
  · rw [Prime.powerProduct_eq_one fun e he => List.eq_of_mem_replicate he, one_mul]

theorem grow (h : IsVector s m es) {count : Nat} (hn : m.grow s count = .ok n) :
    IsVector s n (padded count es) := by
  obtain ⟨parts, hparts, hn⟩ := bind_eq_ok.mp hn
  rw [h.residual] at hparts
  obtain rfl := factor_one hparts
  refine of_checked hn h.time ?_ rfl h.uncorrected
  show addExponents m.exps _ = _
  rw [h.exps, addExponents_replicate_zero]

theorem widen (h : IsVector s m es) {count : Nat} (hn : m.widen s count = .ok n) :
    IsVector s n (padded count es) := by
  unfold Monzo.widen at hn
  split at hn
  · exact h.grow hn
  · next hle =>
    cases hn
    rw [h.components] at hle
    rwa [padded_of_le (not_lt.mp hle)]

theorem align (ha : IsVector s a es) (hb : IsVector s b fs) {c d : Monzo}
    (h : Monzo.align s a b = .ok (c, d)) :
    IsVector s c (padded fs.length es) ∧ IsVector s d (padded es.length fs) := by
  obtain ⟨a', ha', h⟩ := bind_eq_ok.mp h
  obtain ⟨b', hb', h⟩ := bind_eq_ok.mp h
  cases h
  rw [hb.components] at ha'
  rw [ha.components] at hb'
  exact ⟨ha.widen ha', hb.widen hb'⟩

/-- A vector can be widened over the primes of the table. -/
theorem exists_widen (h : IsVector s m es) {count : Nat} (hcount : count ≤ Prime.tableSize) :
    ∃ n, m.widen s count = .ok n := by
  have hpadded := h.extended count
  unfold Monzo.widen
  split
  · have hfactor : factor count m.residual = .ok (List.replicate count 0, 1) := by
      obtain ⟨parts, hparts⟩ : ∃ parts, factor count 1 = .ok parts :=
        ⟨_, factor_eq_ok_iff.mpr ⟨hcount, rfl⟩⟩
      rw [h.residual, hparts, factor_one hparts]
    refine ⟨_, bind_eq_ok.mpr ⟨_, hfactor, checked_eq_ok_iff.mpr ⟨?_, rfl⟩⟩⟩
    have hexps : padded count es = addExponents m.exps (List.replicate count 0) := by
      rw [h.exps, addExponents_replicate_zero]
    exact bounded_congr (m := { exps := padded count es }) hexps rfl
      (.of_beq_zero zero_beq_zero h.uncorrected) hpadded.bounded
  · exact ⟨m, rfl⟩

theorem exists_align (ha : IsVector s a es) (hb : IsVector s b fs)
    (hes : es.length ≤ Prime.tableSize) (hfs : fs.length ≤ Prime.tableSize) :
    ∃ c d, Monzo.align s a b = .ok (c, d) := by
  obtain ⟨c, hc⟩ := ha.exists_widen hfs
  obtain ⟨d, hd⟩ := hb.exists_widen hes
  rw [← hb.components] at hc
  rw [← ha.components] at hd
  exact ⟨c, d, bind_eq_ok.mpr ⟨c, hc, bind_eq_ok.mpr ⟨d, hd, rfl⟩⟩⟩

/-! ## Arithmetic -/

theorem mul (ha : IsVector s a es) (hb : IsVector s b fs) (h : a.mul s b = .ok m) :
    IsVector s m (Literal.zipEntries (· + ·) es fs) := by
  obtain ⟨⟨c, d⟩, hcd, h⟩ := bind_eq_ok.mp h
  obtain ⟨hc, hd⟩ := ha.align hb hcd
  refine of_checked h ?_ ?_ ?_ (add_beq_zero hc.uncorrected hd.uncorrected)
  · show c.time + d.time = 0
    rw [hc.time, hd.time, add_zero]
  · show c.exps.zipWith _ d.exps = _
    rw [hc.exps, hd.exps, Literal.zipEntries_eq_zipWith]
  · show c.residual * d.residual = 1
    rw [hc.residual, hd.residual, mul_one]

theorem div (ha : IsVector s a es) (hb : IsVector s b fs) (h : a.div s b = .ok v) :
    ∃ m : Monzo, v = .exact m ∧ IsVector s m (Literal.zipEntries (· - ·) es fs) := by
  unfold Monzo.div at h
  rw [hb.residual, if_neg one_ne_zero] at h
  obtain ⟨m, hm, rfl⟩ := map_eq_ok.mp h
  refine ⟨m, rfl, ?_⟩
  obtain ⟨⟨c, d⟩, hcd, hm⟩ := bind_eq_ok.mp hm
  obtain ⟨hc, hd⟩ := ha.align hb hcd
  refine of_checked hm ?_ ?_ ?_ (sub_beq_zero hc.uncorrected hd.uncorrected)
  · show c.time - d.time = 0
    rw [hc.time, hd.time, sub_zero]
  · show c.exps.zipWith _ d.exps = _
    rw [hc.exps, hd.exps, Literal.zipEntries_eq_zipWith]
  · show c.residual / d.residual = 1
    rw [hc.residual, hd.residual, div_one]

/-- Two vectors over the primes of the table have a product when its vector is within the
bounds. -/
theorem exists_mul (ha : IsVector s a es) (hb : IsVector s b fs)
    (hes : es.length ≤ Prime.tableSize) (hfs : fs.length ≤ Prime.tableSize)
    (hm : IsVector s m (Literal.zipEntries (· + ·) es fs)) : ∃ n, a.mul s b = .ok n := by
  obtain ⟨c, d, hcd⟩ := ha.exists_align hb hes hfs
  obtain ⟨hc, hd⟩ := ha.align hb hcd
  refine ⟨_, bind_eq_ok.mpr ⟨_, hcd, checked_eq_ok_iff.mpr ⟨?_, rfl⟩⟩⟩
  refine bounded_congr ?_ ?_ ?_ hm.bounded
  · show _ = c.exps.zipWith _ d.exps
    rw [hm.exps, hc.exps, hd.exps, Literal.zipEntries_eq_zipWith]
  · show _ = c.residual * d.residual
    rw [hm.residual, hc.residual, hd.residual, mul_one]
  · exact .of_beq_zero hm.uncorrected (add_beq_zero hc.uncorrected hd.uncorrected)

/-- Two vectors over the primes of the table have a quotient when its vector is within the
bounds. -/
theorem exists_div (ha : IsVector s a es) (hb : IsVector s b fs)
    (hes : es.length ≤ Prime.tableSize) (hfs : fs.length ≤ Prime.tableSize)
    (hm : IsVector s m (Literal.zipEntries (· - ·) es fs)) : ∃ v, a.div s b = .ok v := by
  obtain ⟨c, d, hcd⟩ := ha.exists_align hb hes hfs
  obtain ⟨hc, hd⟩ := ha.align hb hcd
  unfold Monzo.div
  rw [hb.residual, if_neg one_ne_zero]
  refine ⟨_, map_eq_ok.mpr ⟨_, bind_eq_ok.mpr ⟨_, hcd, checked_eq_ok_iff.mpr ⟨?_, rfl⟩⟩, rfl⟩⟩
  refine bounded_congr ?_ ?_ ?_ hm.bounded
  · show _ = c.exps.zipWith _ d.exps
    rw [hm.exps, hc.exps, hd.exps, Literal.zipEntries_eq_zipWith]
  · show _ = c.residual / d.residual
    rw [hm.residual, hc.residual, hd.residual, div_one]
  · exact .of_beq_zero hm.uncorrected (sub_beq_zero hc.uncorrected hd.uncorrected)

theorem inverse (h : IsVector s m es) (hv : m.inverse s = .ok v) :
    ∃ n : Monzo, v = .exact n ∧ IsVector s n (es.map fun e => -e) := by
  unfold Monzo.inverse at hv
  rw [h.residual, if_neg one_ne_zero] at hv
  obtain ⟨n, hn, rfl⟩ := map_eq_ok.mp hv
  refine ⟨n, rfl, of_checked hn ?_ ?_ ?_ (neg_beq_zero h.uncorrected)⟩
  · show -m.time = 0
    rw [h.time, neg_zero]
  · show m.exps.map _ = _
    rw [h.exps]
  · show m.residual⁻¹ = 1
    rw [h.residual, inv_one]

/-- Powers of a vector, which may have been built within other bounds. -/
theorem powRatio (h : IsVector t m es) {y : ℚ} (hden : y.den < s.maxPowDenominator)
    (hv : m.powRatio s y = .ok v) : ∃ n : Monzo, v = .exact n ∧ IsVector s n (es.map (· * y)) := by
  have hpow : Ratio.pow? m.residual y = some 1 := by rw [h.residual, Ratio.pow?_one]
  obtain ⟨x, -, hx, ⟨q, n, hq, rfl, hn⟩ | ⟨hnone, -⟩ | ⟨hnone, -⟩⟩ := powRatio_spec hden hv
  · rw [hpow] at hq
    cases hq
    refine ⟨n, rfl, of_checked hn ?_ ?_ rfl (beq_zero_mul h.uncorrected hx)⟩
    · show m.time * y = 0
      rw [h.time, zero_mul]
    · show m.exps.map _ = _
      rw [h.exps]
  · rw [hpow] at hnone
    cases hnone
  · rw [hpow] at hnone
    cases hnone

theorem abs (h : IsVector s m es) (hn : m.abs s = .ok n) : IsVector s n es := by
  refine of_checked hn h.time h.exps ?_ h.uncorrected
  show m.residual.abs = 1
  rw [h.residual]
  rfl

/-! ## Pairing -/

theorem folded (h : IsVector t m es) : m.folded s = .ok m := by
  rw [Monzo.folded, if_pos h.residual]

theorem dot (ha : IsVector t a es) (hb : IsVector u b fs) :
    a.dot s b = .ok (pairing es fs) := by
  unfold Monzo.dot correctionProduct
  rw [ha.folded, hb.folded]
  show (if a.cents == 0 || b.cents == 0 then _ else _ : Except Fault ℚ) >>= _ = _
  rw [ha.uncorrected]
  show Except.ok (a.time * b.time + pairing a.exps b.exps + 0) = _
  rw [ha.time, zero_mul, zero_add, add_zero, ha.exps, hb.exps]

/-- The geometric inverse of a vector, which may have been built within other bounds. -/
theorem geometricInverse (h : IsVector t m es) (hn : m.geometricInverse s = .ok n) :
    IsVector s n (es.map (· * (pairing es es)⁻¹)) := by
  unfold Monzo.geometricInverse at hn
  rw [h.dot h] at hn
  replace hn : (if pairing es es = 0 then _ else _) = Except.ok n := hn
  split at hn
  · cases hn
  · rw [h.folded] at hn
    obtain ⟨vector, hvector, hn⟩ := bind_eq_ok.mp hn
    cases hvector
    obtain ⟨x, hx, hn⟩ := bind_eq_ok.mp hn
    refine of_checked hn ?_ ?_ rfl
      (beq_zero_mul h.uncorrected (Number.isFinite_of_toDouble hx))
    · show m.time * _ = 0
      rw [h.time, zero_mul]
    · show m.exps.map _ = _
      rw [h.exps]

end IsVector

theorem pairing_map_mul (es : List ℚ) (x y : ℚ) :
    pairing (es.map (· * x)) (es.map (· * y)) = x * y * pairing es es := by
  induction es with
  | nil => simp [pairing]
  | cons e es ih =>
    rw [List.map_cons, List.map_cons, pairing, pairing, ih]
    ring

theorem pairing_self_nonneg (es : List ℚ) : 0 ≤ pairing es es := by
  induction es with
  | nil => exact le_rfl
  | cons e es ih => exact add_nonneg (mul_self_nonneg e) ih

/-- Only zeros pair to zero with themselves. -/
theorem pairing_self_eq_zero_iff {es : List ℚ} : pairing es es = 0 ↔ ∀ e ∈ es, e = 0 := by
  induction es with
  | nil => simp [pairing]
  | cons e es ih =>
    rw [pairing, List.forall_mem_cons, ← ih,
      add_eq_zero_iff_of_nonneg (mul_self_nonneg e) (pairing_self_nonneg es), mul_self_eq_zero]

end Monzo

end Intonation
