import Intonation.Monzo.Temperament
import Intonation.Proofs.Monzo.Canonical
import Intonation.Proofs.Outcome

/-!
# Vectors as fractions of an equave

The exponents of a vector over their common denominator, divided by their greatest common
divisor, are those of the equave. The fraction of the equave gives the vector back.

## Main statements

* `temperament_spec`: the fraction and the equave of a vector
* `exists_primitive`: the exponents of the equave have no common divisor
* `temperament_wholes`: a vector of integers is a whole power of its equave
* `ofTemperament_ok`: the value of a fraction of an equave
-/

namespace Intonation.Monzo
open Intonation.Prime

/-! ## The common denominator and divisor -/

theorem dvd_foldl_lcm (es : List ℚ) (l : Nat) :
    l ∣ es.foldl (fun l e => l.lcm e.den) l ∧
      ∀ e ∈ es, e.den ∣ es.foldl (fun l e => l.lcm e.den) l := by
  induction es generalizing l with
  | nil => simp
  | cons e es ih =>
    obtain ⟨h1, h2⟩ := ih (l.lcm e.den)
    refine ⟨(Nat.dvd_lcm_left l e.den).trans h1, fun e' he' => ?_⟩
    rcases List.mem_cons.mp he' with rfl | hmem
    · exact (Nat.dvd_lcm_right l e'.den).trans h1
    · exact h2 e' hmem

theorem foldl_lcm_pos (es : List ℚ) {l : Nat} (hl : 0 < l) :
    0 < es.foldl (fun l e => l.lcm e.den) l := by
  induction es generalizing l with
  | nil => exact hl
  | cons e es ih => exact ih (Nat.lcm_pos hl e.den_pos)

theorem foldl_gcd_dvd (cs : List Int) (g : Nat) :
    cs.foldl (fun g c => g.gcd c.natAbs) g ∣ g ∧
      ∀ c ∈ cs, ((cs.foldl (fun g c => g.gcd c.natAbs) g : Nat) : Int) ∣ c := by
  induction cs generalizing g with
  | nil => simp
  | cons c cs ih =>
    obtain ⟨h1, h2⟩ := ih (g.gcd c.natAbs)
    refine ⟨h1.trans (Nat.gcd_dvd_left g c.natAbs), fun c' hc' => ?_⟩
    rcases List.mem_cons.mp hc' with rfl | hmem
    · exact Int.natCast_dvd.mpr (h1.trans (Nat.gcd_dvd_right g c'.natAbs))
    · exact h2 c' hmem

theorem dvd_foldl_gcd {cs : List Int} {d : Nat} (h : ∀ c ∈ cs, (d : Int) ∣ c) {g : Nat}
    (hg : d ∣ g) : d ∣ cs.foldl (fun g c => g.gcd c.natAbs) g := by
  induction cs generalizing g with
  | nil => exact hg
  | cons c cs ih =>
    have hc : d ∣ c.natAbs := Int.natCast_dvd.mp (h c List.mem_cons_self)
    exact ih (fun c' hc' => h c' (List.mem_cons_of_mem _ hc')) (Nat.dvd_gcd hg hc)

theorem commonDenominator_pos (es : List ℚ) : 0 < commonDenominator es :=
  foldl_lcm_pos es one_pos

/-- An exponent over the common denominator is whole. -/
theorem scaled_eq {es : List ℚ} {e : ℚ} (he : e ∈ es) :
    (((e * (commonDenominator es : ℚ)).num : Int) : ℚ) = e * commonDenominator es := by
  obtain ⟨k, hk⟩ := (dvd_foldl_lcm es 1).2 e he
  have hint : e * (commonDenominator es : ℚ) = ((e.num * k : Int) : ℚ) := by
    rw [commonDenominator, hk]
    push_cast
    rw [← mul_assoc, Rat.mul_den_eq_num]
  rw [hint, Rat.num_intCast]

theorem commonDivisor_dvd {cs : List Int} {c : Int} (hc : c ∈ cs) :
    (commonDivisor cs : Int) ∣ c := (foldl_gcd_dvd cs 0).2 c hc

theorem dvd_commonDivisor {cs : List Int} {d : Nat} (h : ∀ c ∈ cs, (d : Int) ∣ c) :
    d ∣ commonDivisor cs := dvd_foldl_gcd h (dvd_zero d)

theorem commonDivisor_pos {es : List ℚ} (h : isFlat es = false) :
    0 < commonDivisor (scaledExponents es) := by
  by_contra h0
  have hzero : commonDivisor (scaledExponents es) = 0 := by omega
  have hflat : isFlat es = true := by
    rw [isFlat, List.all_eq_true]
    intro e he
    have hdvd := commonDivisor_dvd (List.mem_map_of_mem (f := fun e =>
      (e * (commonDenominator es : ℚ)).num) he)
    rw [← scaledExponents, hzero, Nat.cast_zero, zero_dvd_iff] at hdvd
    have hscaled := scaled_eq he
    rw [hdvd, Int.cast_zero, zero_eq_mul] at hscaled
    have hpos : (commonDenominator es : ℚ) ≠ 0 := by
      exact_mod_cast (commonDenominator_pos es).ne'
    simpa using hscaled.resolve_right hpos
  rw [h] at hflat
  cases hflat

/-! ## The fraction and the equave -/

/-- The exponents of the equave of a vector, before it is turned upwards. -/
def equaveExponents (es : List ℚ) : List Int :=
  (scaledExponents es).map fun c => c / commonDivisor (scaledExponents es)

/-- The exponents of a vector are multiples of those of its equave. -/
theorem eq_map_equaveExponents {es : List ℚ} (h : isFlat es = false) :
    es = (equaveExponents es).map fun (n : Int) =>
      (n : ℚ) * ((commonDivisor (scaledExponents es) : ℚ) / commonDenominator es) := by
  have hg : (commonDivisor (scaledExponents es) : ℚ) ≠ 0 := by
    exact_mod_cast (commonDivisor_pos h).ne'
  have hd : (commonDenominator es : ℚ) ≠ 0 := by exact_mod_cast (commonDenominator_pos es).ne'
  conv_lhs => rw [← List.map_id es]
  unfold equaveExponents
  conv_rhs => rw [List.map_map, scaledExponents, List.map_map]
  refine List.map_congr_left fun e he => ?_
  obtain ⟨k, hk⟩ := commonDivisor_dvd (List.mem_map_of_mem (f := fun e =>
    (e * (commonDenominator es : ℚ)).num) he)
  rw [← scaledExponents] at hk
  have hscaled := scaled_eq he
  rw [hk] at hscaled
  have hg' : (commonDivisor (scaledExponents es) : Int) ≠ 0 := by
    exact_mod_cast (commonDivisor_pos h).ne'
  simp only [Function.comp_apply, id_eq]
  rw [← scaledExponents, hk, Int.mul_ediv_cancel_left k hg']
  push_cast at hscaled
  field_simp
  linear_combination -hscaled

/-- Nothing divides all the exponents of the equave. -/
theorem eq_one_of_dvd_equaveExponents {es : List ℚ} (h : isFlat es = false) {d : Nat}
    (hd : ∀ n ∈ equaveExponents es, (d : Int) ∣ n) : d = 1 := by
  have hpos := commonDivisor_pos h
  have hdvd : d * commonDivisor (scaledExponents es) ∣ commonDivisor (scaledExponents es) := by
    refine dvd_commonDivisor fun c hc => ?_
    obtain ⟨k, hk⟩ := hd _ (List.mem_map_of_mem hc)
    rw [← Int.ediv_mul_cancel (commonDivisor_dvd hc), hk, Nat.cast_mul]
    exact ⟨k, by ring⟩
  obtain ⟨k, hk⟩ := hdvd
  exact Nat.eq_one_of_mul_eq_one_right
    (Nat.eq_of_mul_eq_mul_left hpos (show _ * (d * k) = _ * 1 by linarith))

theorem temperament_of_flat {es : List ℚ} (h : isFlat es) : temperament es = (0, 1) := by
  rw [temperament, if_pos h]

/-- A vector that is not flat is a multiple of the exponents of its equave, which have no common
divisor. -/
theorem exists_primitive {es : List ℚ} (hflat : isFlat es = false) : ∃ ns : List Int,
    ns.length = es.length ∧ (temperament es).2 = powerProduct table ns ∧
      es = (ns.map fun (n : Int) => (n : ℚ) * (temperament es).1) ∧ (temperament es).1 ≠ 0 ∧
      ∀ d : Nat, (∀ n ∈ ns, (d : Int) ∣ n) → d = 1 := by
  have heq := eq_map_equaveExponents hflat
  have hlen : (equaveExponents es).length = es.length := by
    simp [equaveExponents, scaledExponents]
  have hproduct : primeProduct table ((scaledExponents es).map fun c =>
      ((c / commonDivisor (scaledExponents es) : Int) : ℚ)) =
        powerProduct table (equaveExponents es) := by
    rw [primeProduct_eq_powerProduct, List.map_map]
    rfl
  have hfraction : mkRat (commonDivisor (scaledExponents es)) (commonDenominator es) =
      (commonDivisor (scaledExponents es) : ℚ) / commonDenominator es := by
    rw [Rat.mkRat_eq_div]
    push_cast
    rfl
  have hne : (commonDivisor (scaledExponents es) : ℚ) / commonDenominator es ≠ 0 := by
    apply div_ne_zero
    · exact_mod_cast (commonDivisor_pos hflat).ne'
    · exact_mod_cast (commonDenominator_pos es).ne'
  unfold temperament
  simp only [hflat, hproduct, hfraction, Bool.false_eq_true, if_false]
  split
  · -- an equave below one is inverted, and the fraction negated
    refine ⟨(equaveExponents es).map fun n => -n, by simpa using hlen, ?_, ?_, neg_ne_zero.mpr hne,
      fun d hd => ?_⟩
    · rw [powerProduct_map_neg]
    · rw [List.map_map]
      conv_lhs => rw [heq]
      refine List.map_congr_left fun n _ => ?_
      simp
    · exact eq_one_of_dvd_equaveExponents hflat fun n hn =>
        (Int.dvd_neg).mp (hd (-n) (List.mem_map_of_mem hn))
  · exact ⟨equaveExponents es, hlen, rfl, heq, hne, fun d => eq_one_of_dvd_equaveExponents hflat⟩

/-- The equave of a vector is a product of prime powers, and the vector is the fraction of the
equave. -/
theorem temperament_spec (es : List ℚ) : ∃ ns : List Int, ns.length = es.length ∧
    (temperament es).2 = powerProduct table ns ∧
    es = (ns.map fun (n : Int) => (n : ℚ) * (temperament es).1) ∧
    ((temperament es).1 = 0 → ∀ n ∈ ns, n = 0) := by
  by_cases hflat : isFlat es
  · refine ⟨es.map fun _ => 0, by simp, ?_, ?_, by simp⟩
    · rw [temperament_of_flat hflat, powerProduct_eq_one (by simp)]
    · rw [List.map_map]
      conv_lhs => rw [← List.map_id es]
      refine List.map_congr_left fun e he => ?_
      rw [isFlat, List.all_eq_true] at hflat
      simpa using hflat e he
  · obtain ⟨ns, hlen, hequave, heq, hne, -⟩ := exists_primitive (Bool.not_eq_true _ ▸ hflat)
    exact ⟨ns, hlen, hequave, heq, fun h0 => absurd h0 hne⟩

theorem temperament_pos (es : List ℚ) : 0 < (temperament es).2 := by
  obtain ⟨ns, -, hequave, -⟩ := temperament_spec es
  rw [hequave]
  exact powerProduct_pos distinct_table ns

/-- The equave points upwards. -/
theorem one_le_temperament (es : List ℚ) : 1 ≤ (temperament es).2 := by
  have hpos := temperament_pos es
  unfold temperament at hpos ⊢
  split
  · exact le_rfl
  · next hflat =>
    rw [if_neg hflat] at hpos
    simp only at hpos ⊢
    split
    · next hlt =>
      rw [if_pos hlt] at hpos
      exact (one_lt_inv₀ (inv_pos.mp hpos)).mpr hlt |>.le
    · next hge => exact not_lt.mp hge

/-- A vector of integers is a whole power of its equave. -/
theorem temperament_wholes (ks : List Int) : ∃ k : Int, (temperament (wholes ks)).1 = k := by
  have hden : commonDenominator (wholes ks) = 1 := by
    have key : ∀ l : Nat, (wholes ks).foldl (fun l e => l.lcm e.den) l = l := by
      induction ks with
      | nil => exact fun l => rfl
      | cons k ks ih =>
        intro l
        show (wholes ks).foldl _ (l.lcm (k : ℚ).den) = l
        rw [Rat.den_intCast, Nat.lcm_one_right, ih]
    exact key 1
  unfold temperament
  split
  · exact ⟨0, by simp⟩
  · simp only [hden, Rat.mkRat_one]
    split
    · exact ⟨-(commonDivisor (scaledExponents (wholes ks)) : Int), by push_cast; rfl⟩
    · exact ⟨(commonDivisor (scaledExponents (wholes ks)) : Int), rfl⟩

/-! ## Lowering a fraction of an equave -/

section
variable {s : Settings} {count : Nat} {fraction equave : ℚ} {base : Monzo}

/-- The residual of an equave is raised to the fraction, if the power is a ratio. -/
theorem ofTemperament_of_pow {q : ℚ} (hbase : ofRatioOver s count equave = .ok base)
    (hpow : Ratio.pow? base.residual fraction = some q) :
    ofTemperament s count fraction equave =
      checked s { exps := base.exps.map (· * fraction), residual := q } := by
  unfold ofTemperament
  rw [hbase]
  dsimp only [Bind.bind, Except.bind]
  rw [hpow]

/-- The power of a residual that is no ratio is a correction in cents. -/
theorem ofTemperament_of_not_pow {x : Float} (hbase : ofRatioOver s count equave = .ok base)
    (hpow : Ratio.pow? base.residual fraction = none) (h0 : base.residual ≠ 0)
    (hx : Double.ofRat? fraction = some x) :
    ofTemperament s count fraction equave =
      checked s { exps := base.exps.map (· * fraction),
                  cents := 1200 * Double.log2Ratio base.residual * x } := by
  unfold ofTemperament
  rw [hbase]
  dsimp only [Bind.bind, Except.bind]
  rw [hpow]
  dsimp only
  rw [if_neg h0, hx]

end

/-- A fraction of an equave has the exponents of the equave, scaled by the fraction. -/
theorem ofTemperament_ok {s : Settings} {count : Nat} {fraction equave : ℚ} {m : Monzo}
    (h : ofTemperament s count fraction equave = .ok m) :
    boundsFault? s m = none ∧ m.time = 0 ∧ ∃ base, ofRatioOver s count equave = .ok base ∧
      m.exps = base.exps.map (· * fraction) := by
  obtain ⟨base, hbase, h⟩ := bind_eq_ok.mp h
  simp only at h
  split at h
  · obtain ⟨hb, rfl⟩ := checked_eq_ok_iff.mp h
    exact ⟨hb, rfl, base, hbase, rfl⟩
  · split at h
    · cases h
    · split at h
      · cases h
      · obtain ⟨hb, rfl⟩ := checked_eq_ok_iff.mp h
        exact ⟨hb, rfl, base, hbase, rfl⟩

end Intonation.Monzo
