import Intonation.Proofs.Monzo.Equave
import Intonation.Proofs.Monzo.Predicates
import Intonation.Proofs.Monzo.Resizing

/-!
# Subgroups of ratios

A list of primes spans the positive ratios that have no other primes. Projecting a value onto the
list gives the exponents of its primes, in the order of the list, wherever the value keeps them:
the basis grows until it covers the list, and then nothing else may be left in the residual or in
the other exponents. The product of the primes raised to these exponents is the value again.

## Main definitions

* `Ratio.SpannedBy`: the ratios that a list of primes spans
* `Ratio.exponentsOver`: the exponents that the primes of a list have in a ratio
* `Monzo.RatioOver`: an exact scalar over a number of primes that denotes a ratio

## Main statements

* `Value.barring_ofSubgroup`: the product of basis elements raised to whole exponents
* `Monzo.meets_toSubgroup`: when a projection returns, and what
* `Value.subgroup_inverse`: both, and that the product of a projection is the value
-/

namespace Intonation
open Intonation.Prime

/-! ## Ratios over a list of primes -/

namespace Ratio

/-- A positive ratio all of whose primes are on a list. -/
structure SpannedBy (ps : List Nat) (q : ℚ) : Prop where
  pos : 0 < q
  primes : ∀ p : Nat, p.Prime → padicValRat p q ≠ 0 → p ∈ ps

theorem SpannedBy.mono {ps qs : List Nat} {q : ℚ} (h : SpannedBy ps q) (hsub : ps ⊆ qs) :
    SpannedBy qs q := ⟨h.pos, fun p hp hval => hsub (h.primes p hp hval)⟩

/-- The exponents that the primes of a list have in a ratio, in the order of the list. -/
def exponentsOver (ps : List Nat) (q : ℚ) : List Int := ps.map fun p => padicValRat p q

end Ratio

namespace Prime

variable {ps : List Nat} {q : ℚ}

/-- Nothing is left of the ratios that the primes span, and of no others. -/
theorem residual_eq_one_iff (h : Distinct ps) :
    (split ps q).2 = 1 ↔ Ratio.SpannedBy ps q := by
  obtain ⟨-, -, hproduct⟩ := split_spec h q
  constructor
  · intro hone
    rw [hone, one_mul] at hproduct
    refine ⟨hproduct ▸ powerProduct_pos h _, fun p hp hval => ?_⟩
    by_contra hmem
    rw [← hproduct] at hval
    exact hval (padicValRat_powerProduct_of_notMem h hp hmem _)
  · intro hspanned
    -- a positive ratio without any prime is one
    have hpos : 0 < (split ps q).2 :=
      pos_of_mul_pos_left (hproduct.symm ▸ hspanned.pos) (powerProduct_pos h _).le
    refine (Ratio.eq_iff_padicValRat hpos one_pos).mpr fun p hp => ?_
    rw [padicValRat_split h hp, padicValRat.one]
    split
    · rfl
    · next hmem => exact by_contra fun hval => hmem (hspanned.primes p hp hval)

/-- A ratio is the product of the primes that span it, raised to their exponents. -/
theorem powerProduct_exponentsOver (h : Distinct ps) (hq : Ratio.SpannedBy ps q) :
    powerProduct ps (Ratio.exponentsOver ps q) = q := by
  obtain ⟨-, -, hproduct⟩ := split_spec h q
  rwa [(residual_eq_one_iff h).mpr hq, one_mul, split_exponents h] at hproduct

theorem powerProduct_eq_prod (ps : List Nat) (ks : List Int) :
    powerProduct ps ks = ((ps.map fun p : Nat => (p : ℚ)).zipWith (· ^ ·) ks).prod := by
  induction ps generalizing ks with
  | nil => simp [powerProduct]
  | cons p ps ih =>
    cases ks with
    | nil => simp
    | cons k ks => rw [powerProduct_cons, ih, List.map_cons, List.zipWith_cons_cons, List.prod_cons]

/-! ### The primes that a list needs -/

theorem exists_index? {p : Nat} (hp : p ∈ table) :
    ∃ k, table[k]? = some p ∧ index? p = some k := by
  obtain ⟨k, hk⟩ := List.mem_iff_getElem?.mp hp
  exact ⟨k, hk, index?_eq_some_iff.mpr ⟨p, rfl, hk⟩⟩

/-- All primes on the list are found. -/
theorem find?_isNone_eq_none (hps : ps ⊆ table) :
    (ps.map fun p : Nat => (p : Int)).find? (fun p => (index? p).isNone) = none := by
  rw [List.find?_eq_none, List.forall_mem_map]
  intro p hp
  obtain ⟨k, -, hindex⟩ := exists_index? (hps hp)
  rw [hindex]
  exact Bool.false_ne_true

/-- How many primes of the table cover a list of primes. -/
def reach (basis : List Int) : Nat := (basis.map fun p => (index? p).getD 0 + 1).foldl max 0

theorem reach_le (hps : ps ⊆ table) : reach (ps.map fun p : Nat => (p : Int)) ≤ tableSize := by
  refine List.foldlRecOn _ max (motive := (· ≤ tableSize)) (Nat.zero_le _) fun n hn k hk => ?_
  obtain ⟨z, hz, rfl⟩ := List.mem_map.mp hk
  obtain ⟨p, hp, rfl⟩ := List.mem_map.mp hz
  obtain ⟨i, hi, hindex⟩ := exists_index? (hps hp)
  rw [hindex]
  exact max_le hn (lt_tableSize hi)

theorem subset_take_reach (hps : ps ⊆ table) :
    ps ⊆ table.take (reach (ps.map fun p : Nat => (p : Int))) := by
  intro p hp
  obtain ⟨k, hk, hindex⟩ := exists_index? (hps hp)
  have hlt : k + 1 ≤ reach (ps.map fun p : Nat => (p : Int)) := by
    refine (le_foldl_max _ 0).2 _ (List.mem_map.mpr ⟨p, List.mem_map.mpr ⟨p, hp, rfl⟩, ?_⟩)
    rw [hindex]
    rfl
  exact (mem_take_iff hk).mpr hlt

end Prime

/-! ## Products of basis elements -/

namespace Monzo
open Double

variable {s : Settings} {a b m n : Monzo} {p q : ℚ} {count : Nat} {wide : Prop}

/-- An exact scalar over the given number of primes that denotes a ratio. -/
structure RatioOver (wide : Prop) (count : Nat) (q : ℚ) (m : Monzo) : Prop where
  isRatio : m.IsRatio wide 0 q
  components : m.components = count

namespace RatioOver

protected theorem unity (hcount : count ≤ tableSize ∨ wide) :
    Barring wide (RatioOver wide count 1) (unity s count) := by
  have hlen : (List.replicate count (0 : ℚ)).length = count := List.length_replicate
  have hone : Barring wide (· = { exps := List.replicate count 0 }) (unity s count) :=
    barring_checked wide
      (fun e he => List.eq_of_mem_replicate (List.mem_of_mem_drop he)) zero_beq_zero
  refine hone.mono ?_
  rintro _ rfl
  refine ⟨⟨rfl, zero_beq_zero, hcount.imp_left hlen.trans_le, List.replicate count 0,
    fun k hk => List.eq_of_mem_replicate (List.mem_of_mem_drop hk), ?_, ?_⟩, hlen⟩
  · rw [wholes, List.map_replicate, Int.cast_zero]
  · rw [one_mul, powerProduct_eq_one fun e he => List.eq_of_mem_replicate he]

protected theorem ofRatioOver (hcount : count ≤ tableSize ∨ wide) (q : ℚ) :
    Barring wide (RatioOver wide count q) (ofRatioOver s count q) :=
  ((IsRatio.ofRatioOver hcount q).and_of_ok fun _ h => (components_ofRatioOver h).2).mono
    fun _ h => ⟨h.1, h.2⟩

/-- A whole power keeps the basis. -/
theorem components_of_powRatio {i : Int} (h : a.powRatio s i = .ok (.exact b))
    (h0 : a.residual ≠ 0) : b.components = a.components := by
  have hpow : Ratio.pow? a.residual i = some (a.residual ^ i) := by
    rw [Ratio.pow?_intCast, if_neg fun hzero => h0 hzero.1]
  obtain ⟨e, -, -, ⟨q, m, -, heq, hm⟩ | ⟨hnone, -⟩ | ⟨hnone, -⟩⟩ :=
    powRatio_spec (den_lt_of_powRatio h) h
  · cases heq
    obtain ⟨-, rfl⟩ := checked_eq_ok_iff.mp hm
    exact List.length_map _
  · rw [hpow] at hnone
    cases hnone
  · rw [hpow] at hnone
    cases hnone

protected theorem powRatio (hs : s.Valid) (h : a.RatioOver wide count q) (hq : q ≠ 0) (k : Int) :
    Barring wide (fun v => ∃ m, v = .exact m ∧ m.RatioOver wide count (q ^ k))
      (a.powRatio s k) := by
  have hres : a.residual ≠ 0 := mt h.isRatio.residual_eq_zero_iff.mp hq
  refine ((h.isRatio.powRatio hs k fun h0 => absurd h0 hq).and_of_ok fun _ h => h).mono ?_
  rintro _ ⟨⟨m, rfl, hm⟩, hpow⟩
  rw [zero_mul] at hm
  exact ⟨m, rfl, hm, (components_of_powRatio hpow hres).trans h.components⟩

protected theorem mul (ha : a.RatioOver wide count p) (hb : b.RatioOver wide count q) :
    Barring wide (RatioOver wide count (p * q)) (a.mul s b) := by
  refine ((ha.isRatio.mul hb.isRatio).and_of_ok fun m h => (parts_of_mul h).2.1).mono ?_
  rintro m ⟨hm, hlen⟩
  rw [add_zero] at hm
  rw [ha.components, hb.components, max_self] at hlen
  exact ⟨hm, hlen⟩

end RatioOver

end Monzo

namespace Value
open Monzo

variable {s : Settings} {m : Monzo} {q : ℚ} {count : Nat} {wide : Prop} {ks : List Int}
  {basis : List ℚ}

/-- Multiplying by powers of basis elements, one after another. -/
theorem barring_mulPowers (hs : s.Valid) (hcount : count ≤ tableSize ∨ wide)
    (hpos : ∀ b ∈ basis, 0 < b) (hm : m.RatioOver wide count q) :
    Barring wide
      (fun v => ∃ n, v = .exact n ∧ n.RatioOver wide count (q * (basis.zipWith (· ^ ·) ks).prod))
      (mulPowers s count ((wholes ks).zip basis) (.exact m)) := by
  -- the invariant is the ratio of the product so far, over the same number of primes throughout
  induction ks generalizing basis m q with
  | nil =>
    refine ⟨m, rfl, ?_⟩
    rwa [List.zipWith_nil_right, List.prod_nil, mul_one]
  | cons k ks ih =>
    cases basis with
    | nil =>
      refine ⟨m, rfl, ?_⟩
      rwa [List.zipWith_nil_left, List.prod_nil, mul_one]
    | cons b basis =>
      obtain ⟨hb, hpos⟩ := List.forall_mem_cons.mp hpos
      rw [List.zipWith_cons_cons, List.prod_cons, ← mul_assoc]
      show Barring wide _ (mulPowers s count (((k : ℚ), b) :: (wholes ks).zip basis) _)
      rw [mulPowers]
      refine (RatioOver.ofRatioOver hcount b).bind fun base hbase => ?_
      refine (hbase.powRatio hs hb.ne' k).bind ?_
      rintro _ ⟨power, rfl, hpower⟩
      refine Barring.bind (P := fun v => ∃ n, v = .exact n ∧ n.RatioOver wide count (q * b ^ k))
        ((hm.mul hpower).map fun n hn => ⟨n, rfl, hn⟩) ?_
      rintro _ ⟨n, rfl, hn⟩
      exact ih hpos hn

/-- The product of positive basis elements raised to whole exponents denotes the product, or a
bound is exceeded. The table is exhausted by more primes than it has. -/
theorem barring_ofSubgroup (hs : s.Valid) (count : Nat) (ks : List Int)
    (hpos : ∀ b ∈ basis, 0 < b) :
    Barring (tableSize < count)
      (fun v => ∃ n, v = .exact n ∧
        n.RatioOver (tableSize < count) count (basis.zipWith (· ^ ·) ks).prod)
      (ofSubgroup s count (wholes ks) basis) := by
  have hcount := le_or_gt count tableSize
  refine (RatioOver.unity hcount).bind fun one hone => ?_
  have hproduct : Barring _ _ (mulPowers s count ((wholes ks).zip basis) (.exact one)) :=
    barring_mulPowers hs hcount hpos hone
  rwa [one_mul] at hproduct

end Value

/-! ## Projections -/

namespace Monzo
open Double

variable {s : Settings} {m wide : Monzo} {ps : List Nat} {p k count : Nat}

/-- The coordinates of a ratio are its exponents. -/
theorem coordinate_eq_padicValRat (hfrac : m.isFractional) (h0 : m.residual ≠ 0)
    (hk : k < tableSize) : coordinate m.parts k = padicValRat (atPosition k) m.ratio := by
  obtain ⟨-, ns, hns⟩ := isFractional_iff.mp hfrac
  rw [ratio_eq_of_exps hns, padicValRat_atPosition_mul h0 (powerProduct_pos distinct_table ns).ne',
    padicValRat_powerProduct ns hk, coordinate, parts, hns, getD_wholes]
  push_cast
  ring

namespace Factored

/-- A ratio over at least as many primes, as far as the table reaches. -/
theorem barring_resize (hm : m.Factored) (hfrac : m.isFractional) (hcount : count ≤ tableSize) :
    Barring False (fun n => n.Factored ∧ n.isFractional ∧ n.ratio = m.ratio ∧
        n.components = max count m.components)
      (m.resize s (max count m.components)) := by
  rcases lt_or_ge m.components count with hlt | hge
  · have hratio : m.IsRatio False m.time m.ratio :=
      .of_toRatio (if_pos hfrac) hm.vanish (.inl (hlt.le.trans hcount))
    rw [resize_eq_widen hlt]
    refine ((hratio.widen (.inl hcount)).and_of_ok (Ensures.iff_forall.mp hm.widen)).mono ?_
    rintro n ⟨⟨hn, hlen⟩, hfactored⟩
    exact ⟨hfactored, hn.isFractional, hn.ratio_eq, hlen.trans (max_comm _ _)⟩
  · rw [resize_eq_checked hge]
    refine (barring_checked False hm.vanish (isFractional_iff.mp hfrac).1).mono ?_
    rintro _ rfl
    exact ⟨hm, hfrac, rfl, (max_eq_right hge).symm⟩

/-- Under the default bound a ratio within the bounds is within them over more primes. -/
theorem exists_resize (hm : m.Factored) (hfrac : m.isFractional) (hcount : count ≤ tableSize)
    (hbounded : boundsFault? s m = none)
    (hdefault : s.absurdExponent = ({} : Settings).absurdExponent) :
    ∃ n, m.resize s (max count m.components) = .ok n := by
  rcases lt_or_ge m.components count with hlt | hge
  · obtain ⟨hcents, ns, hns⟩ := isFractional_iff.mp hfrac
    rw [resize_eq_widen hlt]
    rcases eq_or_ne m.residual 0 with h0 | h0
    -- a zero has no exponents to be moved
    · have hbounds := boundsFault?_eq_none_iff.mp hbounded
      have hsplit : split (table.take count) 0 = (List.replicate count 0, 0) := by
        rw [split, if_pos rfl, List.map_const', length_take_table hcount]
      refine exists_widen (n := { m with exps := padded count m.exps }) hcount hcents hcents
        (bounded_of_uncorrected ?_ hbounds.2.bits_le hcents) ?_
      · exact exponentFault?_append_zeros _ hbounds.1 fun e he => List.eq_of_mem_replicate he
      · rw [spread, if_pos (by exact hlt), parts, parts, h0, hsplit,
          IsVector.addExponents_replicate_zero]
    · have hbuilt : Monzo.ofRatioOver s m.components m.ratio =
          .ok { exps := m.exps, residual := m.residual } := by
        refine ofRatioOver_eq_ok_iff.mpr ⟨hlt.le.trans hcount, ?_⟩
        have hlen : ns.length ≤ tableSize := by
          rw [components, hns, length_wholes] at hlt
          omega
        rw [hm.split_ratio hns h0, List.take_of_length_le hlen, ← hns]
        exact checked_eq_ok_iff.mpr
          ⟨bounded_congr (m := m) rfl rfl (.of_beq_zero hcents zero_beq_zero) hbounded, rfl⟩
      obtain ⟨n, hn⟩ := exists_ofRatioOver_of_le hdefault ((ratio_eq_zero_iff hfrac).not.mpr h0)
        hbuilt hlt.le hcount
      refine exists_widen hcount hcents (isRatio_ofRatioOver hn).uncorrected
        (bounded_ofRatioOver hn) ?_
      rw [hm.spread_eq hfrac h0 hlt.le hcount, parts_of_ofRatioOver hn]
      rfl
  · exact ⟨m, by rw [resize_eq_checked hge, checked_eq_ok_iff.mpr ⟨hbounded, rfl⟩]⟩

theorem mapM_exponentOf (hm : m.Factored) (hfrac : m.isFractional) (h0 : m.residual ≠ 0)
    (hps : ps ⊆ table) : (ps.map fun p : Nat => (p : Int)).mapM m.exponentOf =
      .ok (wholes (Ratio.exponentsOver ps m.ratio)) := by
  induction ps with
  | nil => rfl
  | cons p ps ih =>
    obtain ⟨hp, hps⟩ := List.forall_mem_cons.mp hps
    obtain ⟨k, hk, -⟩ := exists_index? hp
    have hexponent : m.exponentOf p = .ok ((padicValRat p m.ratio : Int) : ℚ) := by
      rw [hm.exponentOf hk, coordinate_eq_padicValRat hfrac h0 (lt_tableSize hk),
        atPosition_of_getElem? hk]
    rw [List.map_cons, List.mapM_cons, hexponent, ih hps]
    rfl

/-- Over a basis that covers the list, the residual and the other exponents are empty exactly for
the ratios that the list spans. -/
theorem spannedBy_iff (hm : m.Factored) (hfrac : m.isFractional)
    (hps : ps ⊆ table.take m.components) : Ratio.SpannedBy ps m.ratio ↔ m.residual = 1 ∧
      (table.zip m.exps).all fun ((p : Nat), e) =>
        e = 0 || (ps.map fun p : Nat => (p : Int)).contains (p : Int) := by
  obtain ⟨-, ns, hns⟩ := isFractional_iff.mp hfrac
  have hresidual : m.residual = 1 ↔ Ratio.SpannedBy (table.take m.components) m.ratio := by
    rw [← residual_eq_one_iff (distinct_table.take _)]
    rcases eq_or_ne m.residual 0 with h0 | h0
    · rw [(ratio_eq_zero_iff hfrac).mpr h0, h0, split, if_pos rfl]
    · rw [hm.split_ratio hns h0]
  have hothers (h0 : m.residual ≠ 0) : ((table.zip m.exps).all fun ((p : Nat), e) =>
      e = 0 || (ps.map fun p : Nat => (p : Int)).contains (p : Int)) ↔
        ∀ p ∈ table.take m.components, padicValRat p m.ratio ≠ 0 → p ∈ ps := by
    rw [hm.zip_exps hfrac h0, List.all_map, List.all_eq_true]
    refine forall₂_congr fun p _ => ?_
    simp [or_iff_not_imp_left]
  constructor
  · intro hspanned
    have hone := hresidual.mpr (hspanned.mono hps)
    refine ⟨hone, (hothers (hone ▸ one_ne_zero)).mpr fun p hp => ?_⟩
    exact hspanned.primes p (prime_of_mem_table (List.mem_of_mem_take hp))
  · rintro ⟨hone, hall⟩
    have hspanned := hresidual.mp hone
    refine ⟨hspanned.pos, fun p hp hval => ?_⟩
    exact (hothers (hone ▸ one_ne_zero)).mp hall p (hspanned.primes p hp hval) hval

/-- A projection returns the exponents of the primes on the list exactly when they span the value,
unless a bound is exceeded over the primes that cover the list. That does not happen to values
within the bounds under the default one. -/
theorem meets_toSubgroup (hm : m.Factored) (hfrac : m.isFractional) (hps : ps ⊆ table) :
    Meets
      (fun es => Ratio.SpannedBy ps m.ratio ∧ es = wholes (Ratio.exponentsOver ps m.ratio))
      (fun f => f.family = .unrepresentable ∧ ¬ Ratio.SpannedBy ps m.ratio ∨
        (f.family = .overflow ∨ f = .tooLarge) ∧ ¬ (boundsFault? s m = none ∧
          s.absurdExponent = ({} : Settings).absurdExponent))
      (m.toSubgroup s (ps.map fun p : Nat => (p : Int))) := by
  -- the list lies within the table, so that only a bound can keep the basis from covering it
  have hreach := reach_le hps
  have hresize := hm.barring_resize (s := s) hfrac hreach
  have hreturns := hm.exists_resize (s := s) hfrac hreach
  rw [toSubgroup, find?_isNone_eq_none hps]
  show Meets _ _ (m.resize s (max (reach (ps.map fun p : Nat => (p : Int))) m.components) >>= _)
  cases hwide : m.resize s (max (reach (ps.map fun p : Nat => (p : Int))) m.components) with
  | error f =>
    rw [hwide] at hresize hreturns
    refine .inr ⟨hresize.imp_right fun h => h.resolve_right And.right, fun hdefault => ?_⟩
    obtain ⟨n, hn⟩ := hreturns hdefault.1 hdefault.2
    cases hn
  | ok wide =>
    rw [hwide] at hresize
    obtain ⟨hfactored, hwidefrac, hratio, hlen⟩ := hresize
    have hcover : ps ⊆ table.take wide.components := List.Subset.trans (subset_take_reach hps)
      (List.take_prefix_take_left (hlen ▸ le_max_left _ _)).subset
    have hiff := hfactored.spannedBy_iff hwidefrac hcover
    have huncorrected : wide.isUncorrected = true := (isFractional_iff.mp hwidefrac).1
    rw [← hratio]
    show Meets _ _ (if _ then _ else _)
    by_cases hone : wide.residual = 1
    · rw [if_neg (by simp [hone, huncorrected])]
      split
      · next hall =>
        rw [hfactored.mapM_exponentOf hwidefrac (hone ▸ one_ne_zero) hps]
        exact ⟨hiff.mpr ⟨hone, hall⟩, rfl⟩
      · next hall => exact .inl ⟨rfl, fun hspanned => hall (hiff.mp hspanned).2⟩
    · rw [if_pos (by simp [hone])]
      exact .inl ⟨rfl, fun hspanned => hone (hiff.mp hspanned).1⟩

/-- Values within the default bounds are projected whenever the list spans them. -/
theorem toSubgroup_eq (hm : m.Factored) (hfrac : m.isFractional) (hps : ps ⊆ table)
    (hspanned : Ratio.SpannedBy ps m.ratio) (hbounded : boundsFault? s m = none)
    (hdefault : s.absurdExponent = ({} : Settings).absurdExponent) :
    m.toSubgroup s (ps.map fun p : Nat => (p : Int)) =
      .ok (wholes (Ratio.exponentsOver ps m.ratio)) := by
  have houtcome := hm.meets_toSubgroup (s := s) hfrac hps
  cases hes : m.toSubgroup s (ps.map fun p : Nat => (p : Int)) with
  | ok es =>
    rw [hes] at houtcome
    rw [houtcome.2]
  | error f =>
    rw [hes] at houtcome
    rcases houtcome with ⟨-, hnot⟩ | ⟨-, hnot⟩
    · exact absurd hspanned hnot
    · exact absurd ⟨hbounded, hdefault⟩ hnot

end Factored

end Monzo

/-! ## Round trips -/

namespace Value
open Monzo

variable {s t : Settings} {m : Monzo} {ps : List Nat}

/-- The product of the primes on a list, raised to their exponents in a value that they span, is
strictly equal to the value. -/
theorem barring_ofSubgroup_exponentsOver (ht : t.Valid) (hm : m.Factored) (htime : m.time = 0)
    (hfrac : m.isFractional) (hd : Distinct ps) (hspanned : Ratio.SpannedBy ps m.ratio)
    (count : Nat) :
    Barring (tableSize < count)
      (fun v => ∃ n, v = .exact n ∧ n.components = count ∧ ∀ u,
        Barring (¬ n.Alignable m) (· = true) (n.strictEquals u m) ∧
          (boundsFault? u n = none → boundsFault? u m = none → n.Alignable m →
            n.strictEquals u m = .ok true))
      (ofSubgroup t count (wholes (Ratio.exponentsOver ps m.ratio))
        (ps.map fun p : Nat => (p : ℚ))) := by
  have hpos : ∀ b ∈ ps.map fun p : Nat => (p : ℚ), 0 < b :=
    List.forall_mem_map.mpr fun p hp => by exact_mod_cast (hd.prime p hp).pos
  -- both values are factored and denote one ratio, which is all that strict equality looks at
  have hbuilt := (barring_ofSubgroup ht count (Ratio.exponentsOver ps m.ratio) hpos).and_of_ok
    (Ensures.iff_forall.mp (factored_build (.subgroup count _ _)))
  rw [← powerProduct_eq_prod, powerProduct_exponentsOver hd hspanned] at hbuilt
  refine hbuilt.mono ?_
  rintro _ ⟨⟨n, rfl, hn⟩, hfactored⟩
  have htimes : n.time = m.time := hn.isRatio.time.trans htime.symm
  have hratio : n.ratio = m.ratio := hn.isRatio.ratio_eq
  have hm0 : m.residual ≠ 0 := (ratio_eq_zero_iff hfrac).not.mp hspanned.pos.ne'
  have hn0 : n.residual ≠ 0 := mt hn.isRatio.residual_eq_zero_iff.mp hspanned.pos.ne'
  have hnfrac := hn.isRatio.isFractional
  refine ⟨n, rfl, hn.components, fun u => ⟨?_, fun hboundn hboundm halign => ?_⟩⟩
  · refine (barring_strictEquals hfactored hm hnfrac hfrac hn0 hm0).mono fun r hr => ?_
    rw [hr, decide_eq_true_eq]
    exact ⟨htimes, hratio⟩
  · exact (strictEquals_iff hfactored hm hnfrac hfrac hn0 hm0 hboundn hboundm).mpr
      ⟨halign, htimes, hratio⟩

/-- The product of positive ratios raised to whole exponents is exact and denotes the product. A
projection of a factored ratio onto distinct primes of the table returns the exponents of the primes
exactly when they span the value, and the product of the primes raised to these exponents is
strictly equal to the value, over any number of primes and under any settings. Each of the three
may exceed a bound instead. A projection does not when the value is within the bounds in force and
the largest exponent is the default one. The product and the comparison may exhaust the table, but
only where some value has more components than the table has primes. -/
theorem subgroup_inverse :
    (∀ (s : Settings) (count : Nat) (ks : List Int) (basis : List ℚ), s.Valid →
      (∀ b ∈ basis, 0 < b) →
        Barring (tableSize < count)
          (fun v => ∃ n, v = .exact n ∧ n.time = 0 ∧
            n.toRatio = .ok (basis.zipWith (fun b k => b ^ k) ks).prod)
          (ofSubgroup s count (wholes ks) basis)) ∧
      ∀ (s : Settings) (m : Monzo) (ps : List Nat), m.Factored → m.time = 0 → m.isFractional →
        ps.Nodup → ps ⊆ table →
          Meets
            (fun es => Ratio.SpannedBy ps m.ratio ∧
              es = wholes (Ratio.exponentsOver ps m.ratio) ∧
              ∀ (t : Settings) (count : Nat), t.Valid →
                Barring (tableSize < count)
                  (fun v => ∃ n, v = .exact n ∧ n.components = count ∧ ∀ u : Settings,
                    Barring (¬ n.Alignable m) (· = true) (n.strictEquals u m) ∧
                      (boundsFault? u n = none → boundsFault? u m = none → n.Alignable m →
                        n.strictEquals u m = .ok true))
                  (ofSubgroup t count es (ps.map fun p : Nat => (p : ℚ))))
            (fun f => f.family = .unrepresentable ∧ ¬ Ratio.SpannedBy ps m.ratio ∨
              (f.family = .overflow ∨ f = .tooLarge) ∧ ¬ (boundsFault? s m = none ∧
                s.absurdExponent = ({} : Settings).absurdExponent))
            (m.toSubgroup s (ps.map fun p : Nat => (p : Int))) := by
  refine ⟨fun s count ks basis hs hpos => ?_, fun s m ps hm htime hfrac hnodup hps => ?_⟩
  · refine (barring_ofSubgroup hs count ks hpos).mono ?_
    rintro _ ⟨n, rfl, hn⟩
    exact ⟨n, rfl, hn.isRatio.time, hn.isRatio.toRatio⟩
  · have hd : Distinct ps := ⟨fun p hp => prime_of_mem_table (hps hp), hnodup⟩
    refine (hm.meets_toSubgroup hfrac hps).mono ?_
    rintro _ ⟨hspanned, rfl⟩
    exact ⟨hspanned, rfl, fun t count ht =>
      barring_ofSubgroup_exponentsOver ht hm htime hfrac hd hspanned count⟩

/-- A quotient of powers of three halves and seven fifths, and the projection of a hundred and
eighty sevenths, which keeps all its primes but two in the residual. -/
theorem subgroup_inverse_mixed :
    let m : Monzo := { exps := [2], residual := 45 / 7 }
    (∃ n, ofSubgroup {} 2 (wholes [2, -1]) [3 / 2, 7 / 5] = .ok (.exact n) ∧
      n.toRatio = .ok (45 / 28)) ∧
      m.Factored ∧ m.time = 0 ∧ m.isFractional ∧ m.toSubgroup {} [7, 2, 5, 3] = .ok [-1, 2, 1, 2] ∧
        ∃ n, ofSubgroup {} 3 [-1, 2, 1, 2] [7, 2, 5, 3] = .ok (.exact n) ∧
          n.strictEquals {} m = .ok true := by
  intro m
  have hsplit : split (table.take 1) (180 / 7) = ([2], 45 / 7) := by decide +kernel
  have hm : m.Factored :=
    (Reached.of_split (s := {}) (by decide) hsplit (by decide +kernel)).factored
  have hfrac : m.isFractional := by decide +kernel
  obtain ⟨hproducts, hprojections⟩ := subgroup_inverse
  refine ⟨?_, hm, rfl, hfrac, ?_⟩
  · have hproduct := hproducts {} 2 [2, -1] [3 / 2, 7 / 5] Settings.valid_default
      (by decide +kernel)
    have hok : (ofSubgroup {} 2 (wholes [2, -1]) [3 / 2, 7 / 5]).map (fun _ => ()) = .ok () := by
      decide +kernel
    obtain ⟨v, hv, -⟩ := map_eq_ok.mp hok
    rw [hv] at hproduct
    obtain ⟨n, rfl, -, hn⟩ := hproduct
    exact ⟨n, hv, hn.trans (congrArg Except.ok (by norm_num))⟩
  · have hprojection := hprojections {} m [7, 2, 5, 3] hm rfl hfrac (by decide)
      (by decide +kernel)
    have hes : m.toSubgroup {} [7, 2, 5, 3] = .ok [-1, 2, 1, 2] := by decide +kernel
    refine ⟨hes, ?_⟩
    rw [show ([7, 2, 5, 3] : List Nat).map (fun p : Nat => (p : Int)) = [7, 2, 5, 3] from rfl,
      hes] at hprojection
    have hproduct := hprojection.2.2 {} 3 Settings.valid_default
    have hok : (ofSubgroup {} 3 [-1, 2, 1, 2] [7, 2, 5, 3] >>= fun v =>
        v.strictEquals {} (.exact m)).isOk := by decide +kernel
    obtain ⟨r, hr⟩ := exists_of_isOk hok
    obtain ⟨v, hv, hr⟩ := bind_eq_ok.mp hr
    rw [show ([7, 2, 5, 3] : List Nat).map (fun p : Nat => (p : ℚ)) = [7, 2, 5, 3] from rfl,
      hv] at hproduct
    obtain ⟨n, rfl, -, hequal⟩ := hproduct
    have hr' : n.strictEquals {} m = .ok r := hr
    have htrue := (hequal {}).1
    rw [hr'] at htrue
    exact ⟨n, hv, hr'.trans (congrArg Except.ok htrue)⟩

/-- One over more components than the table has primes is projected onto two, and what its exponents
give over nine primes is not compared with it. Two to the tenth is not projected onto two under a
tighter bound. -/
theorem subgroup_out_of_range :
    let wide : Monzo := { exps := List.replicate 1001 0 }
    let power : Monzo := { exps := [10] }
    (wide.Factored ∧ wide.time = 0 ∧ wide.isFractional ∧ wide.toSubgroup {} [2] = .ok [0] ∧
        ∃ n, ofSubgroup {} 9 [0] [2] = .ok (.exact n) ∧
          n.strictEquals {} wide = .error .tableExhausted) ∧
      power.Factored ∧ power.time = 0 ∧ power.isFractional ∧ Ratio.SpannedBy [2] power.ratio ∧
        power.toSubgroup { absurdExponent := 5 } [2] = .error (.exponentBound 2 10) := by
  intro wide power
  have hunity : unity {} 1001 = .ok wide := unity_eq (s := {}) (by decide) 1001
  have hwide : wide.Factored :=
    (Reached.built (v := .exact wide) {} (.unity 1001) (map_eq_ok.mpr ⟨_, hunity, rfl⟩)).factored
  have hone : Barring True (RatioOver True 1001 1) (unity {} 1001) :=
    RatioOver.unity (.inr trivial)
  rw [hunity] at hone
  have hfracw : wide.isFractional := hone.isRatio.isFractional
  have hratio : wide.ratio = 1 := hone.isRatio.ratio_eq
  have hspanned : Ratio.SpannedBy [2] wide.ratio := by
    rw [hratio]
    exact ⟨one_pos, fun p _ hval => absurd padicValRat.one hval⟩
  have htwo : [2] ⊆ table :=
    List.cons_subset.mpr ⟨mem_table.mpr ⟨Nat.prime_two, by decide⟩, List.nil_subset _⟩
  have hprojection : wide.toSubgroup {} [2] = .ok (wholes (Ratio.exponentsOver [2] wide.ratio)) :=
    hwide.toSubgroup_eq hfracw htwo hspanned (checked_eq_ok_iff.mp hunity).1 rfl
  rw [hratio, Ratio.exponentsOver, List.map_singleton, padicValRat.one] at hprojection
  have hpower : power.Factored := by
    refine ⟨Free.one _, fun e he => ?_⟩
    rw [List.drop_eq_nil_of_le (by decide)] at he
    cases he
  have hfrac : power.isFractional := by decide +kernel
  refine ⟨⟨hwide, rfl, hfracw, hprojection, ?_⟩, hpower, rfl, hfrac, ?_, by decide +kernel⟩
  · have hpos : ∀ b ∈ [(2 : ℚ)], 0 < b := by simp
    have hproduct := barring_ofSubgroup Settings.valid_default 9 [0] hpos
    have hok : (ofSubgroup {} 9 (wholes [0]) [2]).map (fun _ => ()) = .ok () := by decide +kernel
    obtain ⟨v, hv, -⟩ := map_eq_ok.mp hok
    rw [hv] at hproduct
    obtain ⟨n, rfl, hn⟩ := hproduct
    have hwiden : n.widen {} wide.components = .error .tableExhausted := by
      rw [hone.components]
      exact widen_of_lt (by rw [hn.components]; decide) (by decide)
    refine ⟨n, hv, ?_⟩
    rw [Monzo.strictEquals, align, hwiden]
    rfl
  · obtain ⟨primes, htable, -⟩ := table_eq_cons
    refine (hpower.spannedBy_iff hfrac ?_).mpr ⟨rfl, ?_⟩
    · rw [htable]
      exact List.Subset.refl [2]
    · rw [htable]
      rfl

end Value

end Intonation
