import Intonation.Proofs.Monzo.CommonBase
import Intonation.Proofs.Monzo.Coordinates

/-!
# Folding residuals

A ratio all of whose primes are primes of the table can be taken over so many primes that nothing
is left of it. Folding its residual into the exponents is growing the basis so far: it fails only
where a bound is exceeded, and then neither for ratios built within the default bounds nor for a
prime by itself.

## Main definitions

* `Ratio.OverTable`: a ratio all of whose primes are primes of the table
* `Monzo.Foldable`: a residual that goes into exponents of further primes

## Main statements

* `Monzo.coordinate_ofRatioOver`: the coordinates of a ratio
* `Monzo.Foldable.folded_eq_widen`: folding a residual is growing the basis
* `Monzo.Foldable.barring_folded`: folding fails by overflow alone
* `Monzo.exists_folded_of_default`, `Monzo.exists_folded_prime`: when it does not fail
-/

namespace Intonation
open Double

/-- What is within a bound is within any larger one. -/
theorem Double.Within.mono {size : Float} {bound larger q : ℚ} (h : Within size bound q)
    (hle : bound ≤ larger) : Within size larger q := by
  obtain ⟨x, hx, hexceeds⟩ := h
  refine ⟨x, hx, ?_⟩
  unfold exceeds at hexceeds ⊢
  split
  · next y hy =>
    rw [hy] at hexceeds
    have hsmall : ¬ bound < y := of_decide_eq_false hexceeds
    exact decide_eq_false fun hlt => hsmall (hle.trans_lt hlt)
  · next hnone =>
    rw [hnone] at hexceeds
    exact hexceeds

theorem Barring.of_meets {α : Type} {wide : Prop} {P : α → Prop} {x : Except Fault α}
    (h : Meets P (fun f => f.family = .overflow ∨ f = .tooLarge ∨ f = .tableExhausted ∧ wide) x) :
    Barring wide P x := by
  cases x with
  | ok a => exact h
  | error f => exact h

/-- All primes of the numerator and of the denominator are primes of the table. -/
def Ratio.OverTable (q : ℚ) : Prop :=
  ∀ p : Nat, p.Prime → padicValRat p q ≠ 0 → p ∈ Prime.table

namespace Prime

variable {p r count : Nat}

/-- A prime has itself once, and no other prime. -/
theorem padicValRat_prime (hr : r.Prime) (hp : p.Prime) :
    padicValRat r (p : ℚ) = if r = p then 1 else 0 := by
  have := Fact.mk hr
  have := Fact.mk hp
  rw [padicValRat.of_nat]
  split
  · next heq => rw [heq, padicValNat_self, Nat.cast_one]
  · next hne => rw [padicValNat_primes hne, Nat.cast_zero]

/-- A prime of the table as a ratio. -/
theorem overTable_prime (hp : p ∈ table) : Ratio.OverTable p := by
  intro r hr hval
  rw [padicValRat_prime hr (prime_of_mem_table hp)] at hval
  obtain rfl : r = p := by_contra fun hne => hval (if_neg hne)
  exact hp

/-- Nothing is divided out of a later prime. -/
theorem residual_prime (hp : p.Prime) (hmem : p ∉ table.take count) :
    (split (table.take count) (p : ℚ)).2 = p := by
  have hpos : (0 : ℚ) < p := by exact_mod_cast hp.pos
  refine (Ratio.eq_iff_padicValRat (Monzo.residual_pos hpos) hpos).mpr fun r hr => ?_
  rw [padicValRat_split (distinct_table.take count) hr, padicValRat_prime hr hp]
  split
  · next hmem' =>
    have hne : r ≠ p := fun heq => hmem (heq ▸ hmem')
    rw [if_neg hne]
  · rfl

/-- The size of a prime in cents is no larger than its number of bits allows. -/
theorem within_one (hp : p ∈ table) :
    Within (cents p) ((Ratio.bitLength p * 1200 : Nat) : ℚ) 1 := by
  obtain ⟨hlo, hhi⟩ := octaves_mem_table hp
  obtain ⟨hword, hone, hfinite⟩ := cents_eq_ofWord hlo (hhi.trans (by norm_num))
  have hprime := prime_of_mem_table hp
  have hbits : Ratio.bitLength p = p.log2 + 1 := if_neg hprime.ne_zero
  have hshort : p.log2 < 13 := by
    refine (Nat.log2_lt hprime.ne_zero).mpr ((mem_table.mp hp).2.trans_lt ?_)
    decide
  have hbits1 : 2 ^ 52 ≤ ratioBits 1 := by decide
  have hfull := le_mantissaOf (hbits1.trans (ratioBits_le_ratioBits one_pos hone))
  have hle : Ratio.octaves p ≤ ((p.log2 + 1) * 8 : Nat) / 8 := by
    have := (Ratio.octaves_bounds p).2
    push_cast
    linarith
  -- neither of the two roundings crosses the whole number of octaves
  have hround := ratioOf_le_of_eighth (by omega) (by linarith) hle
  have hscaled : 1200 * ratioOf (ratioBits (Ratio.octaves p)) ≤
      ((p.log2 + 1) * 9600 : Nat) / 8 := by
    push_cast at hround ⊢
    linarith
  have hround' := ratioOf_le_of_eighth (by omega) (by linarith) hscaled
  have hwithin := Within.of_mul_le hfinite hfull one_pos (by norm_num)
    (by omega : (p.log2 + 1) * 9600 < 2 ^ 53) (by rwa [Nat.cast_one, one_mul])
  rw [← hword] at hwithin
  have hbound : (((p.log2 + 1) * 9600 : Nat) : ℚ) / 8 = ((p.log2 + 1) * 1200 : Nat) := by
    push_cast
    ring
  rwa [hbound, Nat.cast_one, ← hbits] at hwithin

end Prime

namespace Monzo
open Intonation.Prime

variable {s t : Settings} {m n : Monzo} {q : ℚ} {p k count limit : Nat}

/-- The coordinates of a ratio are its exponents, whatever basis it was built with. -/
theorem coordinate_ofRatioOver (h : ofRatioOver t count q = .ok m) (k : Nat) :
    coordinate m.parts k = padicValRat (atPosition k) q := by
  obtain rfl := parts_of_ofRatioOver h
  rw [parts, coordinate, getD_wholes, ← Int.cast_add, getD_split_add]

/-- A ratio that has a value has it within larger bounds as well. -/
theorem ofRatioOver_mono (hq : q ≠ 0) (hle : t.absurdExponent ≤ s.absurdExponent)
    (h : ofRatioOver t count q = .ok m) : ofRatioOver s count q = .ok m := by
  have hbounds : centsBound t ≤ centsBound s := by
    unfold centsBound
    exact_mod_cast Nat.mul_le_mul_right 1200 hle
  obtain ⟨hcount, hwithin, hbits⟩ := (ofRatioOver_returns_iff hq).mp ⟨m, h⟩
  obtain ⟨n, hn⟩ := (ofRatioOver_returns_iff (s := s) hq).mpr
    ⟨hcount, fun p hp => (hwithin p hp).imp_right fun h => h.mono hbounds, hbits.trans hle⟩
  rw [hn, parts_of_ofRatioOver h, parts_of_ofRatioOver hn]

/-! ### Values that can be folded -/

/-- Nothing is left in the residual, or some prime of the table that the value has no exponent
of. -/
def Foldable (m : Monzo) : Prop :=
  m.residual = 1 ∨ ∃ p ∈ table, p ∉ table.take m.components ∧ padicValRat p m.residual ≠ 0

/-- A prime of the table that the value has no exponent of can be folded. -/
theorem foldable_of_prime (hp : p ∈ table) (hres : m.residual = p)
    (hmem : p ∉ table.take m.components) : m.Foldable := by
  refine .inr ⟨p, hp, hmem, ?_⟩
  rw [hres, padicValRat.self (prime_of_mem_table hp).one_lt]
  exact one_ne_zero

/-- Widening over the primes of the table fails by overflow alone. -/
theorem barring_widen (hcount : count ≤ tableSize) (hnan : m.cents.isNaN = false) :
    Barring False (fun _ => True) (m.widen s count) := by
  unfold widen
  split
  · next hlt =>
    refine (barring_factor (.inl hcount) m.residual).bind ?_
    rintro _ ⟨-, rfl⟩
    refine (barring_checked_of_not_isNaN (m := { m with
      exps := addExponents m.exps (split (table.take count) m.residual).1
      residual := (split (table.take count) m.residual).2 }) False ?_ hnan).mono fun _ _ => trivial
    obtain ⟨hlen, -, -⟩ := split_spec (distinct_table.take count) m.residual
    rw [length_take_table hcount] at hlen
    rw [List.drop_eq_nil_of_le]
    · exact List.forall_mem_nil _
    · rw [length_addExponents, hlen]
      exact max_le (hlt.le.trans hcount) hcount
  · trivial

/-- Nothing else is folded. -/
theorem foldable_of_folded (h : m.folded s = .ok n) : m.Foldable := by
  unfold folded at h
  split at h
  · next hone => exact .inl hone
  · next hone =>
    split at h
    · cases h
    · next limit hlimit =>
      obtain ⟨result, hresult, hnone⟩ := bind_eq_ok.mp h
      have h0 : m.residual ≠ 0 := fun h0 => by
        rw [primeLimit, if_pos h0] at hlimit
        cases hlimit
      have hfound : limit? m.residual = some limit := by
        unfold primeLimit at hlimit
        rw [if_neg h0] at hlimit
        split at hlimit <;> cases hlimit
        assumption
      have hlt : m.components < limit := by
        by_contra hle
        -- nothing would leave the residual
        rw [resize_eq_checked (not_lt.mp hle)] at hresult
        obtain ⟨-, rfl⟩ := checked_eq_ok_iff.mp hresult
        rw [if_neg hone] at hnone
        cases hnone
      rcases exists_padicValRat_of_limit? h0 hfound with rfl | ⟨k, p, hp, rfl, hval⟩
      · exact absurd hlt (Nat.not_lt_zero _)
      · refine .inr ⟨p, List.mem_of_getElem? hp, fun hmem => ?_, hval⟩
        rw [mem_take_iff hp] at hmem
        omega

section
variable (hpos : 0 < m.residual) (htable : Ratio.OverTable m.residual)
include hpos htable

/-- A factored value can be folded. -/
theorem Factored.foldable (hm : m.Factored) : m.Foldable := by
  by_cases hone : m.residual = 1
  · exact .inl hone
  · right
    have hprime : ∃ p : Nat, p.Prime ∧ padicValRat p m.residual ≠ 0 := by
      by_contra hnone
      refine hone ((Ratio.eq_iff_padicValRat hpos one_pos).mpr fun p hp => ?_)
      rw [padicValRat.one]
      by_contra hval
      exact hnone ⟨p, hp, hval⟩
    obtain ⟨p, hp, hval⟩ := hprime
    exact ⟨p, htable p hp hval, fun hmem => hval (hm.free p hmem), hval⟩

namespace Foldable

/-- Nothing is left of the residual over all the primes that it needs, and these are more primes
than the value has exponents of. -/
theorem exists_limit (hm : m.Foldable) (hone : m.residual ≠ 1) :
    ∃ limit, limit? m.residual = some limit ∧ limit ≤ tableSize ∧ m.components < limit ∧
      (split (table.take limit) m.residual).2 = 1 := by
  have hnothing : (split (table.take 0) m.residual).2 = m.residual := by
    obtain ⟨hlen, -, hproduct⟩ := split_spec (distinct_table.take 0) m.residual
    rwa [List.length_eq_zero_iff.mp hlen, powerProduct_nil, mul_one] at hproduct
  obtain ⟨limit, hlimit⟩ := Monzo.exists_limit hpos htable 0
  rw [hnothing] at hlimit
  obtain ⟨hle, hnone⟩ := limit?_spec hpos hlimit
  refine ⟨limit, hlimit, hle, ?_, hnone⟩
  obtain ⟨p, hp, hmem, hval⟩ := hm.resolve_left hone
  by_contra hlt
  -- otherwise the prime is left in the residual
  have hmem' : p ∉ table.take limit := fun hmem' =>
    hmem ((List.take_prefix_take_left (not_lt.mp hlt)).subset hmem')
  rw [← padicValRat_residual (distinct_table.take limit) (prime_of_mem_table hp) hmem' hpos.ne',
    hnone, padicValRat.one] at hval
  exact hval rfl

/-- Folding a residual is growing the basis until nothing is left. -/
theorem folded_eq_widen (hm : m.Foldable) : ∃ limit ≤ tableSize, m.folded s = m.widen s limit := by
  by_cases hone : m.residual = 1
  · refine ⟨0, Nat.zero_le _, ?_⟩
    rw [folded, if_pos hone, widen, if_neg (Nat.not_lt_zero _)]
  · obtain ⟨limit, hlimit, hle, hlt, hnone⟩ := hm.exists_limit hpos htable hone
    refine ⟨limit, hle, ?_⟩
    rw [folded, if_neg hone, primeLimit, if_neg hpos.ne', hlimit]
    simp only
    rw [resize_eq_widen hlt]
    cases hwiden : m.widen s limit with
    | error f => rfl
    | ok n =>
      have hparts := (parts_of_widen hwiden).1
      rw [spread, if_pos (by exact hlt)] at hparts
      exact if_pos ((congrArg Prod.snd hparts).trans hnone)

/-- Folding a residual fails by overflow alone. -/
theorem barring_folded (hm : m.Foldable) (hnan : m.cents.isNaN = false) :
    Barring False (fun _ => True) (m.folded s) := by
  obtain ⟨limit, hle, hfolded⟩ := hm.folded_eq_widen (s := s) hpos htable
  rw [hfolded]
  exact barring_widen hle hnan

end Foldable

end

/-! ### Ratios -/

section
variable (hq : 0 < q) (htable : Ratio.OverTable q) (h : ofRatioOver t count q = .ok m)
include hq htable h

/-- What a ratio leaves has no other primes than the ratio. -/
theorem overTable_residual : 0 < m.residual ∧ Ratio.OverTable m.residual ∧ m.Foldable := by
  have hfactored : m.Factored := Ensures.iff_forall.mp (Factored.ofRatioOver q) m h
  have hparts : m.residual = (split (table.take count) q).2 := by rw [parts_of_ofRatioOver h]
  have hpos : 0 < m.residual := hparts ▸ residual_pos hq
  have hover : Ratio.OverTable m.residual := by
    intro p hp hval
    rw [hparts, padicValRat_split (distinct_table.take count) hp] at hval
    split at hval
    · exact absurd rfl hval
    · exact htable p hp hval
  exact ⟨hpos, hover, hfactored.foldable hpos hover⟩

/-- Folding the residual of a ratio is growing the basis until nothing is left. -/
theorem folded_eq_widen : ∃ limit ≤ tableSize, m.folded s = m.widen s limit := by
  obtain ⟨hpos, hover, hfoldable⟩ := overTable_residual hq htable h
  exact hfoldable.folded_eq_widen hpos hover

/-- Folding the residual of a ratio fails by overflow alone. -/
theorem barring_folded : Barring False (fun _ => True) (m.folded s) := by
  obtain ⟨hpos, hover, hfoldable⟩ := overTable_residual hq htable h
  exact hfoldable.barring_folded hpos hover
    (not_isNaN_of_beq_zero (isRatio_ofRatioOver h).uncorrected)

/-- A residual is folded when the powers of its primes are within the bound. -/
theorem exists_folded (hle : t.absurdExponent ≤ s.absurdExponent)
    (hlater : ∀ p ∈ table, p ∉ table.take count → padicValRat p q = 0 ∨
      Within (Prime.cents p) (centsBound s) |(padicValRat p q : ℚ)|) :
    ∃ n, m.folded s = .ok n := by
  obtain ⟨limit, hlimit, hfolded⟩ := folded_eq_widen (s := s) hq htable h
  obtain ⟨-, hcomponents⟩ := components_ofRatioOver h
  rw [hfolded]
  rcases le_or_gt limit count with hshort | hlong
  · exact ⟨m, by rw [widen, if_neg (by omega)]⟩
  · have hm := ofRatioOver_mono hq.ne' hle h
    obtain ⟨n, hn⟩ := exists_ofRatioOver_of_within hq.ne' hm hlong.le hlimit
      fun p hp => hlater p (List.mem_of_mem_take hp)
    exact widen_ofRatioOver hq.ne' hm hlong.le hn

/-- The residual of a ratio built within the default bounds is folded within any larger ones. -/
theorem exists_folded_of_default (ht : t.absurdExponent ≤ ({} : Settings).absurdExponent)
    (hs : ({} : Settings).absurdExponent ≤ s.absurdExponent) : ∃ n, m.folded s = .ok n := by
  refine exists_folded hq htable h (ht.trans hs) fun p hp hmem => .inr ?_
  -- the power of a later prime was in the residual
  have hdistinct := distinct_table.take count
  have hbits := ((ofRatioOver_returns_iff hq.ne').mp ⟨m, h⟩).2.2.trans ht
  rw [← padicValRat_residual hdistinct (prime_of_mem_table hp) hmem hq.ne']
  refine (within_of_bits rfl (residual_pos hq).ne' hbits hp).mono ?_
  unfold centsBound
  exact_mod_cast Nat.mul_le_mul_right 1200 hs

end

/-- The residual of a prime of the table is folded within any bounds that it was built with. -/
theorem exists_folded_prime (hp : p ∈ table) (h : ofRatioOver t count p = .ok m)
    (hle : t.absurdExponent ≤ s.absurdExponent) : ∃ n, m.folded s = .ok n := by
  have hprime := prime_of_mem_table hp
  have hpos : (0 : ℚ) < p := by exact_mod_cast hprime.pos
  refine exists_folded hpos (overTable_prime hp) h hle fun r hr hmem => ?_
  rw [padicValRat_prime (prime_of_mem_table hr) hprime]
  split
  · next heq =>
    subst heq
    right
    -- nothing was divided out of the prime, so that its bits are those of the residual
    have hbits := ((ofRatioOver_returns_iff hpos.ne').mp ⟨m, h⟩).2.2
    have hterms : Ratio.bits (r : ℚ) = max (Ratio.bitLength r) (Ratio.bitLength 1) := by
      rw [Ratio.bits, Rat.num_natCast, Rat.den_natCast, Int.natAbs_natCast]
    rw [residual_prime hprime hmem, hterms] at hbits
    rw [Int.cast_one, abs_one]
    refine (within_one hp).mono ?_
    unfold centsBound
    exact_mod_cast Nat.mul_le_mul_right 1200 (((le_max_left _ _).trans hbits).trans hle)
  · exact .inl rfl

/-! ## Pairing -/

variable {a b a' b' : Monzo}

theorem correctionProduct_of_zero {x y : Float} (h : x == 0 ∨ y == 0) :
    correctionProduct x y = .ok 0 := by
  rw [correctionProduct, if_pos]
  rwa [Bool.or_eq_true]

/-- Pairing without real corrections only fails where a residual is not folded. -/
theorem barring_dot (ha : Barring False (fun _ => True) (a.folded s))
    (hb : Barring False (fun _ => True) (b.folded s)) (hcents : a.cents == 0 ∨ b.cents == 0) :
    Barring False (fun _ => True) (a.dot s b) := by
  refine (ha.and_of_ok fun _ h => folded_spec h).bind fun a' ⟨_, hfa⟩ =>
    (hb.and_of_ok fun _ h => folded_spec h).bind fun b' ⟨_, hfb⟩ => ?_
  rw [← hfa.cents, ← hfb.cents] at hcents
  rw [correctionProduct_of_zero hcents]
  trivial

theorem exists_dot (ha : a.folded s = .ok a') (hb : b.folded s = .ok b')
    (hcents : a.cents == 0 ∨ b.cents == 0) : ∃ r, a.dot s b = .ok r := by
  rw [← (folded_spec ha).cents, ← (folded_spec hb).cents] at hcents
  exact ⟨_, bind_eq_ok.mpr ⟨a', ha, bind_eq_ok.mpr ⟨b', hb, bind_eq_ok.mpr
    ⟨0, correctionProduct_of_zero hcents, rfl⟩⟩⟩⟩

end Monzo

end Intonation
