import Intonation.Proofs.Monzo.Holding
import Intonation.Proofs.Monzo.Logarithm
import Intonation.Proofs.Prime.Limit

/-!
# Powers of a common base

Two ratios that are powers of a common base have proportional exponents over every basis, and
residuals that are powers of a common base as well. The exponent between them is read off the
exponents of the base, and therefore it is found when the base has an exponent at all: over the
basis of both, or over the basis that factors the residuals. A base that consists of primes beyond
the table has none. Its residual is never compared by itself, so that the logarithm in such a base
is real although it is exact by arithmetic.

## Main definitions

* `Measures`: a basis, or the whole table, that shows a ratio in its exponents

## Main statements

* `split_of_pow_eq`: powers of a common base over a basis
* `exists_exponent`: a measured base has an exponent over the common basis
* `commonBasis_of_beyond`: a prime beyond the table leaves the bases as they are
* `solve_of_measured`, `solve_of_unmeasured`: the two outcomes of the search
* `log_of_commonBase`: when the logarithm is exact and when it is real
-/

namespace Intonation.Monzo
open Double Intonation.Prime

variable {s : Settings} {m n c d : Monzo} {a b x : ℚ} {i j count : Nat}

/-! ## Powers over a basis -/

/-- The factors of a whole power are the whole powers of the factors. -/
theorem split_zpow {primes : List Nat} (h : Distinct primes) (ha : a ≠ 0) (k : Int) :
    split primes (a ^ k) = ((split primes a).1.map (· * k), (split primes a).2 ^ k) := by
  obtain ⟨hlen, hfree, hproduct⟩ := split_spec h a
  have hres := (residual_split_ne_zero_iff h).mpr ha
  refine split_eq_of_eq_mul h (by rwa [List.length_map]) (zpow_ne_zero k hres) (hfree.zpow h k) ?_
  rw [powerProduct_map_mul, ← mul_zpow, hproduct]

/-- Powers of a common base have proportional exponents, and their residuals are powers of a
common base. -/
theorem split_of_pow_eq {primes : List Nat} (h : Distinct primes) (ha : 0 < a) (hb : 0 < b)
    (hx : a ^ x.den = b ^ x.num) :
    wholes (split primes a).1 = (wholes (split primes b).1).map (· * x) ∧
      (split primes a).2 ^ x.den = (split primes b).2 ^ x.num := by
  obtain ⟨t, ht, rfl⟩ := Ratio.exists_pow_eq hb ha hx
  obtain rfl : a = t ^ x.num := by
    refine (pow_left_inj₀ ha.le (zpow_pos ht _).le x.den_pos.ne').mp ?_
    rw [hx, ← zpow_natCast, ← zpow_natCast, ← zpow_mul, ← zpow_mul, mul_comm]
  rw [← zpow_natCast t, split_zpow h ht.ne', split_zpow h ht.ne']
  constructor
  · rw [← wholes_map (· * x.num) (· * (x.num : ℚ)) (fun n => by push_cast; rfl),
      ← wholes_map (· * (x.den : Int)) (· * (x.den : ℚ)) (fun n => by push_cast; rfl),
      List.map_map]
    refine List.map_congr_left fun e _ => ?_
    rw [Function.comp_apply, mul_assoc, Rat.den_mul_eq_num]
  · show ((split primes t).2 ^ x.num) ^ x.den = ((split primes t).2 ^ (x.den : Int)) ^ x.num
    rw [← zpow_natCast, ← zpow_mul, ← zpow_mul, mul_comm]

/-- A prime without an exponent in the base has none in a power of it. -/
theorem padicValRat_eq_zero_of_pow_eq {p : Nat} (hp : p.Prime) (hx : a ^ x.den = b ^ x.num)
    (h : padicValRat p b = 0) : padicValRat p a = 0 := by
  have := Fact.mk hp
  have hvals := congrArg (padicValRat p) hx
  rw [← zpow_natCast, padicValRat.zpow, padicValRat.zpow, h, mul_zero] at hvals
  exact (mul_eq_zero.mp hvals).resolve_left (by exact_mod_cast x.den_ne_zero)

/-! ## Bases that show a ratio -/

/-- Some prime of the basis has an exponent in the ratio, or every prime that has one is a prime
of the table. -/
def Measures (count : Nat) (b : ℚ) : Prop :=
  (∃ p ∈ table.take count, padicValRat p b ≠ 0) ∨
    ∀ p : Nat, p.Prime → padicValRat p b ≠ 0 → p ∈ table

/-- A prime beyond the table is measured by no basis. -/
theorem not_measures_of_prime {q : Nat} (hq : q.Prime) (hlarge : tableLimit < q) (count : Nat) :
    ¬ Measures count q := by
  have := Fact.mk hq
  have hbeyond : q ∉ table := fun hmem => hlarge.not_ge (mem_table.mp hmem).2
  rintro (⟨p, hp, hval⟩ | htable)
  · have htable := List.mem_of_mem_take hp
    have := Fact.mk (prime_of_mem_table htable)
    have hne : p ≠ q := fun heq => hbeyond (heq ▸ htable)
    rw [padicValRat.of_nat, padicValNat_primes hne] at hval
    exact hval rfl
  · refine hbeyond (htable q hq ?_)
    rw [padicValRat.of_nat, padicValNat_self]
    exact one_ne_zero

/-- A residual of primes of the table can be factored. -/
theorem exists_limit (hb : 0 < b) (h : ∀ p : Nat, p.Prime → padicValRat p b ≠ 0 → p ∈ table)
    (count : Nat) : ∃ k, limit? (split (table.take count) b).2 = some k := by
  have hdistinct := distinct_table.take count
  have hres := (residual_split_ne_zero_iff hdistinct).mpr hb.ne'
  rw [← Option.ne_none_iff_exists']
  intro hnone
  obtain ⟨p, hp, hlarge, hdvd⟩ := exists_prime_of_limit?_eq_none hres hnone
  have hbeyond : p ∉ table := fun hmem => hlarge.not_ge (mem_table.mp hmem).2
  refine hbeyond (h p hp ?_)
  rw [← padicValRat_residual hdistinct hp (fun hmem => hbeyond (List.mem_of_mem_take hmem)) hb.ne']
  intro h0
  exact not_or.mpr ((padicValRat_eq_zero_iff hres hp).mp h0) hdvd

/-- A residual with a prime beyond the table is not one and cannot be factored. -/
theorem limit?_residual_eq_none {p : Nat} (hb : 0 < b) (hp : p.Prime) (hbeyond : p ∉ table)
    (hval : padicValRat p b ≠ 0) (count : Nat) :
    (split (table.take count) b).2.abs ≠ 1 ∧ limit? (split (table.take count) b).2 = none := by
  have hres : 0 < (split (table.take count) b).2 := residual_pos hb
  rw [← padicValRat_residual (distinct_table.take count) hp
    (fun hmem => hbeyond (List.mem_of_mem_take hmem)) hb.ne'] at hval
  constructor
  · rw [rat_abs_eq, abs_of_pos hres]
    intro hone
    rw [hone] at hval
    exact hval padicValRat.one
  · refine limit?_eq_none hres hp (not_le.mp fun hle => hbeyond (mem_table.mpr ⟨hp, hle⟩)) ?_
    by_contra hndvd
    exact hval ((padicValRat_eq_zero_iff hres.ne' hp).mpr (not_or.mp hndvd))

/-- Over a basis that factors the residual, nothing is left. -/
theorem residual_eq_one {k : Nat} (hb : 0 < b) (hj : j ≤ count) (hk : k ≤ count)
    (h : limit? (split (table.take j) b).2 = some k) : (split (table.take count) b).2 = 1 := by
  have htake : ∀ {l : Nat}, l ≤ count → (table.take count).take l = table.take l := by
    intro l hl
    rw [List.take_take, min_eq_left hl]
  have hdistinct := distinct_table.take count
  have hres : 0 < (split (table.take j) b).2 := residual_pos hb
  have hone : (split (table.take count) 1).2 = 1 := by
    have h := split_zpow hdistinct one_ne_zero 0
    rw [zpow_zero, zpow_zero] at h
    exact congrArg Prod.snd h
  rw [residual_split_split hdistinct hb.ne' j, htake hj,
    residual_split_split hdistinct hres.ne' k, htake hk, (limit?_spec hres h).2, hone]

/-- A ratio without residual that is not one has an exponent. -/
theorem exists_exponent_of_residual {primes : List Nat} (h : Distinct primes) (hb : b ≠ 1)
    (hres : (split primes b).2 = 1) : ∃ e ∈ (split primes b).1, e ≠ 0 := by
  by_contra hnone
  push Not at hnone
  obtain ⟨-, -, hproduct⟩ := split_spec h b
  rw [hres, powerProduct_eq_one hnone, one_mul] at hproduct
  exact hb hproduct.symm

/-! ## The common basis -/

section
variable (ha : 0 < a) (hb : 0 < b) (hm : ofRatioOver s i a = .ok m)
  (hn : ofRatioOver s j b = .ok n)
include ha hb hm hn

theorem commonLimit_le : commonLimit m n ≤ tableSize := by
  obtain rfl := parts_of_ofRatioOver hm
  obtain rfl := parts_of_ofRatioOver hn
  have hprime : ∀ {q : ℚ} {k : Nat}, 0 < q → primeLimit q = .ok k → k ≤ tableSize := by
    intro q k hq h
    rw [primeLimit, if_neg hq.ne'] at h
    split at h
    · next limit hlimit =>
      cases h
      exact (limit?_spec hq hlimit).1
    · cases h
  unfold commonLimit
  split
  · exact Nat.zero_le _
  · split
    · next k l hk hl => exact max_le (hprime (residual_pos ha) hk) (hprime (residual_pos hb) hl)
    · exact Nat.zero_le _

theorem commonBasis_bounds : max i j ≤ commonBasis m n ∧ commonBasis m n ≤ tableSize := by
  have hlimit := commonLimit_le ha hb hm hn
  have hi := (ofRatioOver_returns_iff ha.ne').mp ⟨m, hm⟩
  have hj := (ofRatioOver_returns_iff hb.ne').mp ⟨n, hn⟩
  rw [commonBasis, (parts_ofRatioOver ha.ne' hm).2.2.2.2, (parts_ofRatioOver hb.ne' hn).2.2.2.2]
  exact ⟨le_max_left _ _, max_le (max_le hi.1 hj.1) hlimit⟩

/-- A base that is measured has an exponent over the common basis. -/
theorem exists_exponent (hb1 : b ≠ 1) (hx : a ^ x.den = b ^ x.num)
    (hmeasures : Measures (max i j) b) :
    ∃ e ∈ (split (table.take (commonBasis m n)) b).1, e ≠ 0 := by
  obtain ⟨hle, -⟩ := commonBasis_bounds ha hb hm hn
  have hdistinct := distinct_table.take (commonBasis m n)
  rcases hmeasures with ⟨p, hp, hval⟩ | htable
  · have hmem : p ∈ table.take (commonBasis m n) := (List.take_prefix_take_left hle).subset hp
    rw [← map_padicValRat_split hdistinct hb.ne']
    exact ⟨_, List.mem_map_of_mem hmem, hval⟩
  · -- both residuals are of primes of the table, so that the common basis factors them
    have htable' : ∀ p : Nat, p.Prime → padicValRat p a ≠ 0 → p ∈ table := by
      intro p hp hval
      exact htable p hp fun h0 => hval (padicValRat_eq_zero_of_pow_eq hp hx h0)
    obtain ⟨k, hk⟩ := exists_limit ha htable' i
    obtain ⟨l, hl⟩ := exists_limit hb htable j
    refine exists_exponent_of_residual hdistinct hb1 ?_
    obtain rfl := parts_of_ofRatioOver hm
    obtain rfl := parts_of_ofRatioOver hn
    have hresa : 0 < (split (table.take i) a).2 := residual_pos ha
    have hresb : 0 < (split (table.take j) b).2 := residual_pos hb
    refine residual_eq_one hb ((le_max_right _ _).trans hle) ?_ hl
    refine le_trans ?_ (le_max_right _ _)
    unfold commonLimit
    split
    · next hone =>
      have hnothing : (split (table.take j) b).2 = 1 := by
        rw [← abs_of_pos hresb, ← rat_abs_eq]
        exact hone.2
      rw [hnothing, limit?_one] at hl
      cases hl
      exact le_rfl
    · rw [primeLimit, primeLimit, if_neg hresa.ne', if_neg hresb.ne', hk, hl]
      exact le_max_right _ _

/-- The values over the common basis, as far as they can be had. -/
theorem widened (hc : m.widen s (commonBasis m n) = .ok c)
    (hd : n.widen s (commonBasis m n) = .ok d) :
    c.parts = (wholes (split (table.take (commonBasis m n)) a).1,
        (split (table.take (commonBasis m n)) a).2) ∧
      d.parts = (wholes (split (table.take (commonBasis m n)) b).1,
        (split (table.take (commonBasis m n)) b).2) := by
  obtain ⟨hle, hwide⟩ := commonBasis_bounds ha hb hm hn
  rw [(parts_of_widen hc).1, (parts_of_widen hd).1]
  exact ⟨spread_ofRatioOver ha.ne' hm ((le_max_left _ _).trans hle) hwide,
    spread_ofRatioOver hb.ne' hn ((le_max_right _ _).trans hle) hwide⟩

/-! ## The outcomes of the search -/

/-- The exponent in a measured base is found once both values are over the common basis. -/
theorem solve_of_measured (hb1 : b ≠ 1) (hx : a ^ x.den = b ^ x.num)
    (hmeasures : Measures (max i j) b) (hc : m.widen s (commonBasis m n) = .ok c)
    (hd : n.widen s (commonBasis m n) = .ok d) : solve s m n = .ok (some x) := by
  obtain ⟨hpc, hpd⟩ := widened ha hb hm hn hc hd
  obtain ⟨e, he, he0⟩ := exists_exponent ha hb hm hn hb1 hx hmeasures
  have hdistinct := distinct_table.take (commonBasis m n)
  obtain ⟨hexps, hres⟩ := split_of_pow_eq hdistinct ha hb hx
  have hresa : 0 < (split (table.take (commonBasis m n)) a).2 := residual_pos ha
  have hresb : 0 < (split (table.take (commonBasis m n)) b).2 := residual_pos hb
  have hquotient : exponentQuotient? c.exps d.exps = some x := by
    show exponentQuotient? c.parts.1 d.parts.1 = some x
    rw [hpc, hpd, hexps, exponentQuotient?_eq_some_iff (List.length_map _)]
    exact ⟨⟨e, List.mem_map_of_mem he, by exact_mod_cast he0⟩, rfl⟩
  have hpow : Ratio.pow? d.residual x = some c.residual := by
    show Ratio.pow? d.parts.2 x = some c.parts.2
    rw [hpc, hpd, Ratio.pow?_eq_some_iff hresb]
    exact ⟨hresa, hres⟩
  rw [solve_eq_widen]
  refine bind_eq_ok.mpr ⟨c, hc, bind_eq_ok.mpr ⟨d, hd, ?_⟩⟩
  rw [hquotient]
  simp only
  rw [if_pos hpow]

/-- Two ratios, one of which has a prime beyond the table, are looked at over the bases at hand. -/
theorem commonBasis_of_beyond {p : Nat} (hp : p.Prime) (hbeyond : p ∉ table)
    (hval : padicValRat p a ≠ 0 ∨ padicValRat p b ≠ 0) : commonBasis m n = max i j := by
  have hlimit : commonLimit m n = 0 := by
    obtain rfl := parts_of_ofRatioOver hm
    obtain rfl := parts_of_ofRatioOver hn
    rcases hval with h | h
    · obtain ⟨hone, hnone⟩ := limit?_residual_eq_none ha hp hbeyond h i
      rw [commonLimit, if_neg fun h => hone h.1, primeLimit, hnone, if_neg (residual_pos ha).ne']
    · obtain ⟨hone, hnone⟩ := limit?_residual_eq_none hb hp hbeyond h j
      rw [commonLimit, if_neg fun h => hone h.2, primeLimit, primeLimit, hnone,
        if_neg (residual_pos hb).ne']
      split
      · next h => cases h
      · rfl
  rw [commonBasis, (parts_ofRatioOver ha.ne' hm).2.2.2.2, (parts_ofRatioOver hb.ne' hn).2.2.2.2,
    hlimit, max_eq_left (Nat.zero_le _)]

/-- In a base of primes beyond the table no exponent is found. -/
theorem solve_of_unmeasured (hx : a ^ x.den = b ^ x.num) (hunmeasured : ¬ Measures (max i j) b) :
    solve s m n = .ok none := by
  rw [Measures, not_or] at hunmeasured
  push Not at hunmeasured
  obtain ⟨hfreeb, p, hp, hval, hbeyond⟩ := hunmeasured
  have hbasis := commonBasis_of_beyond ha hb hm hn hp hbeyond (.inr hval)
  obtain ⟨-, hwide⟩ := commonBasis_bounds ha hb hm hn
  have hfreea : ∀ p ∈ table.take (max i j), padicValRat p a = 0 := by
    intro p hp
    exact padicValRat_eq_zero_of_pow_eq ((distinct_table.take (max i j)).prime p hp) hx (hfreeb p hp)
  -- no prime of the bases divides either ratio, so that both can be had over the larger basis
  rw [hbasis] at hwide
  obtain ⟨m', hm'⟩ := exists_ofRatioOver_of_within ha.ne' hm (le_max_left i j) hwide
    fun p hp _ => .inl (hfreea p hp)
  obtain ⟨n', hn'⟩ := exists_ofRatioOver_of_within hb.ne' hn (le_max_right i j) hwide
    fun p hp _ => .inl (hfreeb p hp)
  obtain ⟨c, hc⟩ := widen_ofRatioOver ha.ne' hm (le_max_left i j) hm'
  obtain ⟨d, hd⟩ := widen_ofRatioOver hb.ne' hn (le_max_right i j) hn'
  rw [← hbasis] at hc hd hfreeb
  obtain ⟨hpc, hpd⟩ := widened ha hb hm hn hc hd
  have hdistinct := distinct_table.take (commonBasis m n)
  have hquotient : exponentQuotient? c.exps d.exps = none := by
    rw [Option.eq_none_iff_forall_ne_some]
    intro y
    show exponentQuotient? c.parts.1 d.parts.1 ≠ some y
    rw [hpc, hpd]
    intro hy
    obtain ⟨⟨e, he, he0⟩, -⟩ := (exponentQuotient?_eq_some_iff (by
      rw [length_wholes, length_wholes, (split_spec hdistinct a).1, (split_spec hdistinct b).1])).mp hy
    rw [← map_padicValRat_split hdistinct hb.ne'] at he
    obtain ⟨k, hk, rfl⟩ := List.mem_map.mp he
    obtain ⟨p, hp, rfl⟩ := List.mem_map.mp hk
    exact he0 (by rw [hfreeb p hp, Int.cast_zero])
  rw [solve_eq_widen]
  refine bind_eq_ok.mpr ⟨c, hc, bind_eq_ok.mpr ⟨d, hd, ?_⟩⟩
  rw [hquotient]

/-- The logarithm of positive ratios is what the search finds, and real when it finds nothing. -/
theorem log_eq_solve : m.log s n = solve s m n >>= fun solution =>
    solution.elim (realLog m n) fun x => (ofRatio s x).map .exact := by
  obtain rfl := parts_of_ofRatioOver hm
  obtain rfl := parts_of_ofRatioOver hn
  have hresa : 0 < (split (table.take i) a).2 := residual_pos ha
  have hresb : 0 < (split (table.take j) b).2 := residual_pos hb
  have hscalar : ∀ es residual,
      Monzo.isUncorrected { exps := es, residual := residual } = true := fun _ _ => zero_beq_zero
  rw [log, hscalar, hscalar, if_neg (by simp), if_neg (by simp), scalarLog,
    if_neg fun h => hresa.not_gt h.1, if_neg (by rw [not_or, not_le, not_le]; exact ⟨hresa, hresb⟩)]
  refine congrArg (solve s _ _ >>= ·) (funext fun solution => ?_)
  cases solution <;> rfl

end

/-! ## Logarithms -/

theorem realLog_returns (hm : m.time = 0) (hn : n.time = 0) : ∃ r, realLog m n = .ok (.real r) := by
  unfold realLog Approx.log
  rw [if_neg (by simp [toApprox, hm, hn])]
  split
  · exact ⟨_, rfl⟩
  · split <;> exact ⟨_, rfl⟩

/-- An exponent between small exponents has few bits. -/
theorem bits_le_of_mul_eq {e f : Int} (he : e ≠ 0) (hx : (f : ℚ) = e * x)
    (hle : |(e : ℚ)| ≤ 2 ^ 22) (hlf : |(f : ℚ)| ≤ 2 ^ 22) : Ratio.bits x ≤ 23 := by
  have hdiv : x = Rat.divInt f e := by
    rw [Rat.divInt_eq_div, hx]
    field_simp
  have hbits : ∀ {k : Int} {l : Nat}, (l : Int) ∣ k → k ≠ 0 → |(k : ℚ)| ≤ 2 ^ 22 →
      Ratio.bitLength l ≤ 23 := by
    intro k l hdvd hk hle
    have hl : l ≤ 2 ^ 22 := by
      have hnat : l ≤ k.natAbs := Nat.le_of_dvd (Int.natAbs_pos.mpr hk) (Int.natCast_dvd.mp hdvd)
      have habs : (k.natAbs : ℚ) ≤ 2 ^ 22 := by rwa [Nat.cast_natAbs, Int.cast_abs]
      exact hnat.trans (by exact_mod_cast habs)
    exact (Ratio.bitLength_le_bitLength hl).trans (by decide)
  refine max_le ?_ (hbits (hdiv ▸ Rat.den_dvd f e) he hle)
  by_cases hf : f = 0
  · rw [hdiv, hf, Rat.zero_divInt]
    decide
  · exact hbits (Int.natAbs_dvd.mpr (hdiv ▸ Rat.num_dvd f he)) hf hlf

/-- The exponent between two ratios that have values has few bits, when the base is measured. -/
theorem bits_le_of_measured (hdefault : s.absurdExponent = ({} : Settings).absurdExponent)
    (ha : 0 < a) (hb : 0 < b) (hm : ofRatioOver s i a = .ok m) (hn : ofRatioOver s j b = .ok n)
    (hb1 : b ≠ 1) (hx : a ^ x.den = b ^ x.num) (hmeasures : Measures (max i j) b)
    (hc : m.widen s (commonBasis m n) = .ok c) (hd : n.widen s (commonBasis m n) = .ok d) :
    Ratio.bits x ≤ 23 := by
  have hbounded : ∀ {k count : Nat} {q : ℚ} {m c : Monzo}, ofRatioOver s k q = .ok m →
      m.widen s count = .ok c → ∀ e ∈ c.exps, |e| ≤ 2 ^ 22 := by
    intro k count q m c hm hc
    exact abs_le_of_bounded hdefault (bounded_of_widen (bounded_ofRatioOver hm) hc)
  obtain ⟨hpc, hpd⟩ := widened ha hb hm hn hc hd
  obtain ⟨e, he, he0⟩ := exists_exponent ha hb hm hn hb1 hx hmeasures
  obtain ⟨hexps, -⟩ := split_of_pow_eq (distinct_table.take (commonBasis m n)) ha hb hx
  have hcexps : c.exps = wholes (split (table.take (commonBasis m n)) a).1 := congrArg Prod.fst hpc
  have hdexps : d.exps = wholes (split (table.take (commonBasis m n)) b).1 := congrArg Prod.fst hpd
  have hmem : (e : ℚ) ∈ d.exps := hdexps ▸ List.mem_map_of_mem he
  have hscaled : (e : ℚ) * x ∈ c.exps := by
    rw [hcexps, hexps, ← hdexps]
    exact List.mem_map_of_mem hmem
  have hlf := hbounded hm hc _ hscaled
  rw [hcexps] at hscaled
  obtain ⟨f, -, hf⟩ := List.mem_map.mp hscaled
  exact bits_le_of_mul_eq he0 hf (hbounded hn hd _ hmem) (by rwa [hf])

section
variable (ha : 0 < a) (hb : 0 < b) (hx : a ^ x.den = b ^ x.num) (hm : ofRatioOver s i a = .ok m)
  (hn : ofRatioOver s j b = .ok n)
include ha hb hx hm hn

/-- A logarithm in a measured base that returns is exact. -/
theorem log_of_measured (hb1 : b ≠ 1) (hmeasures : Measures (max i j) b) {v : Value}
    (hv : m.log s n = .ok v) : ∃ r, v = .exact r ∧ r.toRatio = .ok x := by
  rw [log_eq_solve ha hb hm hn] at hv
  obtain ⟨solution, hsolution, hv⟩ := bind_eq_ok.mp hv
  have hwidened := hsolution
  rw [solve_eq_widen] at hwidened
  obtain ⟨c, hc, hwidened⟩ := bind_eq_ok.mp hwidened
  obtain ⟨d, hd, -⟩ := bind_eq_ok.mp hwidened
  rw [solve_of_measured ha hb hm hn hb1 hx hmeasures hc hd] at hsolution
  cases hsolution
  obtain ⟨r, hr, rfl⟩ := map_eq_ok.mp hv
  obtain ⟨hcanonical, hratio, -⟩ := canonical_ofRatio hr
  exact ⟨r, rfl, hcanonical.toRatio.trans (by rw [hratio])⟩

/-- Under the default bounds a logarithm in a measured base returns. -/
theorem exists_log_of_measured (hs : s.Valid) (hb1 : b ≠ 1) (hmeasures : Measures (max i j) b)
    (hdefault : s.absurdExponent = ({} : Settings).absurdExponent) : ∃ v, m.log s n = .ok v := by
  rw [log_eq_solve ha hb hm hn]
  obtain ⟨hle, hwide⟩ := commonBasis_bounds ha hb hm hn
  have hi := (le_max_left i j).trans hle
  have hj := (le_max_right i j).trans hle
  obtain ⟨m', hm'⟩ := exists_ofRatioOver_of_le hdefault ha.ne' hm hi hwide
  obtain ⟨n', hn'⟩ := exists_ofRatioOver_of_le hdefault hb.ne' hn hj hwide
  obtain ⟨c, hc⟩ := widen_ofRatioOver ha.ne' hm hi hm'
  obtain ⟨d, hd⟩ := widen_ofRatioOver hb.ne' hn hj hn'
  have hbits := bits_le_of_measured hdefault ha hb hm hn hb1 hx hmeasures hc hd
  have hfew : Ratio.bits x ≤ s.absurdExponent := hbits.trans (hdefault ▸ by decide)
  obtain ⟨r, hr⟩ := exists_ofRatioOver_of_bits hdefault hs.components_le hfew
  refine ⟨.exact r, bind_eq_ok.mpr ⟨some x, ?_, map_eq_ok.mpr ⟨r, hr, rfl⟩⟩⟩
  exact solve_of_measured ha hb hm hn hb1 hx hmeasures hc hd

/-- A logarithm in a base that is not measured is real. -/
theorem log_of_unmeasured (hunmeasured : ¬ Measures (max i j) b) :
    ∃ r, m.log s n = .ok (.real r) := by
  rw [log_eq_solve ha hb hm hn]
  obtain ⟨r, hr⟩ := realLog_returns (m := m) (n := n)
    (by rw [parts_of_ofRatioOver hm]) (by rw [parts_of_ofRatioOver hn])
  exact ⟨r, bind_eq_ok.mpr ⟨none, solve_of_unmeasured ha hb hm hn hx hunmeasured, hr⟩⟩

end

/-- The logarithm of a ratio in a base of which it is a power. It is exact when the base has an
exponent for a prime of either basis, or when all of its primes are in the table, and it returns
under the default bounds then. Otherwise it is real. -/
theorem log_of_commonBase (hs : s.Valid) (ha : 0 < a) (hb : 0 < b) (hb1 : b ≠ 1)
    (hx : a ^ x.den = b ^ x.num) (hm : ofRatioOver s i a = .ok m) (hn : ofRatioOver s j b = .ok n) :
    (Measures (max i j) b → ∀ v, m.log s n = .ok v → ∃ r, v = .exact r ∧ r.toRatio = .ok x) ∧
      (Measures (max i j) b → s.absurdExponent = ({} : Settings).absurdExponent →
        ∃ v, m.log s n = .ok v) ∧
      (¬ Measures (max i j) b → ∃ r, m.log s n = .ok (.real r)) :=
  ⟨fun hmeasures _ => log_of_measured ha hb hx hm hn hb1 hmeasures,
    exists_log_of_measured ha hb hx hm hn hs hb1, log_of_unmeasured ha hb hx hm hn⟩

/-- Two thirds to the power of minus one and a half, over one prime and over none: the residuals
are factored for it. -/
theorem log_of_twoThirds : ∃ m n r, ofRatioOver {} 1 (27 / 8) = .ok m ∧
    ofRatioOver {} 0 (4 / 9) = .ok n ∧ m.log {} n = .ok (.exact r) ∧
    r.toRatio = .ok (-3 / 2) := by
  have hok : (ofRatioOver {} 1 (27 / 8)).map (fun _ => ()) = .ok () ∧
      (ofRatioOver {} 0 (4 / 9)).map (fun _ => ()) = .ok () := by decide +kernel
  obtain ⟨m, hm, -⟩ := map_eq_ok.mp hok.1
  obtain ⟨n, hn, -⟩ := map_eq_ok.mp hok.2
  have hpow : (27 / 8 : ℚ) ^ (-3 / 2 : ℚ).den = (4 / 9) ^ (-3 / 2 : ℚ).num := by
    rw [show (-3 / 2 : ℚ).den = 2 by decide +kernel, show (-3 / 2 : ℚ).num = -3 by decide +kernel]
    norm_num
  have hmeasures : Measures (max 1 0) (4 / 9) := by
    have hvals := @map_padicValRat_split _ (distinct_table.take 1) (4 / 9) (by norm_num)
    rw [show table.take 1 = [2] by decide +kernel,
      show (split [2] (4 / 9)).1 = [2] by decide +kernel] at hvals
    have htwo : padicValRat 2 (4 / 9) = 2 := (List.cons.inj hvals).1
    exact .inl ⟨2, by decide +kernel, by rw [htwo]; decide⟩
  obtain ⟨hexact, hreturns, -⟩ := log_of_commonBase Settings.valid_default (by norm_num) (by norm_num)
    (by norm_num) hpow hm hn
  obtain ⟨v, hv⟩ := hreturns hmeasures rfl
  obtain ⟨r, rfl, hr⟩ := hexact hmeasures v hv
  exact ⟨m, n, r, hm, hn, hv, hr⟩

/-- The square of a prime beyond the table has the logarithm two in that prime, and one has the
logarithm zero. Both come out real. -/
theorem log_of_beyondTable :
    (62837329 : ℚ) ^ (2 : ℚ).den = 7927 ^ (2 : ℚ).num ∧ (1 : ℚ) ^ (0 : ℚ).den = 7927 ^ (0 : ℚ).num ∧
    ∃ n, ofRatio {} 7927 = .ok n ∧
      (∃ m r, ofRatio {} 62837329 = .ok m ∧ m.log {} n = .ok (.real r)) ∧
      ∃ m r, ofRatio {} 1 = .ok m ∧ m.log {} n = .ok (.real r) := by
  have hvalue : ∀ q : ℚ, Ratio.bits q ≤ ({} : Settings).absurdExponent →
      ∃ m, ofRatio {} q = .ok m := fun q =>
    exists_ofRatioOver_of_bits rfl Settings.valid_default.components_le
  obtain ⟨n, hn⟩ := hvalue 7927 (by decide)
  have hunmeasured : ∀ count, ¬ Measures count 7927 := fun count =>
    not_measures_of_prime (by norm_num : Nat.Prime 7927) (by decide) count
  have hreal : ∀ {a x : ℚ}, 0 < a → a ^ x.den = 7927 ^ x.num →
      Ratio.bits a ≤ ({} : Settings).absurdExponent →
        ∃ m r, ofRatio {} a = .ok m ∧ m.log {} n = .ok (.real r) := by
    intro a x ha hx hbits
    obtain ⟨m, hm⟩ := hvalue a hbits
    obtain ⟨r, hr⟩ := log_of_unmeasured ha (by norm_num) hx hm hn (hunmeasured _)
    exact ⟨m, r, hm, hr⟩
  have hsquare : (62837329 : ℚ) ^ (2 : ℚ).den = 7927 ^ (2 : ℚ).num := by norm_num
  have hone : (1 : ℚ) ^ (0 : ℚ).den = 7927 ^ (0 : ℚ).num := by norm_num
  exact ⟨hsquare, hone, n, hn, hreal (by norm_num) hsquare (by decide),
    hreal one_pos hone (by decide)⟩

end Intonation.Monzo
