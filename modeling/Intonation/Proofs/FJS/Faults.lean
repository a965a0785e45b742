import Intonation.FJS.Inflection
import Intonation.Proofs.FJS.Comma
import Intonation.Proofs.Monzo.Faults
import Intonation.Proofs.Prime.Limit

/-!
# How inflecting fails

Commas have small exponents, whatever the bounds in force: the search on the circle of fifths and
the folding into an octave take a limited number of steps. Inflecting by them therefore fails as
exact arithmetic does, and further only when a number has no factorization over the table, or when
one of its primes has no comma.

## Main definitions

* `Memoized.Meets P F x`: the runs of a computation from sound commas
* `Comma.IsShort`: values like commas
* `Inflection.Harmless F`: an inflection whose faults are permitted

## Main statements

* `Comma.abs_le_of_vector?`: the exponents of commas
* `meets_comma`, `meets_inflection`, `meets_inflect`: looking commas up and inflecting by them
-/

namespace Intonation
open Double

/-! ## Runs from sound commas -/

/-- Every run from sound commas ends with sound commas, and returns as it is meant to or fails in a
way that it may. -/
def Memoized.Meets {α : Type} (P : α → Prop) (F : Fault → Prop) (x : Memoized α) : Prop :=
  ∀ memo : CommaMemo, memo.Sound →
    (x.run.run memo).2.Sound ∧ Intonation.Meets P F (x.run.run memo).1

namespace Memoized.Meets

variable {α β : Type} {P R : α → Prop} {Q : β → Prop} {F : Fault → Prop} {x : Memoized α}

theorem ofExcept {r : Except Fault α} (h : Intonation.Meets P F r) : Meets P F (ofExcept r) :=
  fun _ hmemo => ⟨hmemo, h⟩

theorem pure {a : α} (h : P a) : Meets P F (Pure.pure a) := fun _ hmemo => ⟨hmemo, h⟩

theorem bind {f : α → Memoized β} (h : Meets P F x) (hf : ∀ a, P a → Meets Q F (f a)) :
    Meets Q F (x >>= f) := by
  intro memo hmemo
  rw [run_bind]
  obtain ⟨hsound, hmeets⟩ := h memo hmemo
  rcases hx : x.run.run memo with ⟨outcome, rest⟩
  rw [hx] at hsound hmeets
  cases outcome with
  | error fault => exact ⟨hsound, hmeets⟩
  | ok a => exact hf a hmeets rest hsound

end Memoized.Meets

/-! ## The exponents of commas -/

namespace Comma

variable {flavor : String} {size radius cents : Float} {j p : Nat} {es : List ℚ}

theorem abs_le_of_searchFifths {fuel k : Nat} {pitch : Float} {n : Int}
    (h : searchFifths size radius fuel k pitch = some n) : |n| ≤ k + fuel := by
  induction fuel generalizing k pitch with
  | zero => cases h
  | succ fuel ih =>
    rw [searchFifths] at h
    split at h
    · cases h
      rw [Nat.abs_cast]
      omega
    · split at h
      · cases h
        rw [abs_neg, Nat.abs_cast]
        omega
      · have := ih h
        omega

theorem abs_le_of_searchHalfFifths {fuel k : Nat} {pitch : Float} {q : ℚ}
    (h : searchHalfFifths size fuel k pitch = some q) : |q| ≤ k + fuel := by
  induction fuel generalizing k pitch with
  | zero => cases h
  | succ fuel ih =>
    have hhalf : |mkRat (2 * k + 1) 2| ≤ k + (fuel + 1 : Nat) := by
      have hpos : (0 : ℚ) ≤ k := Nat.cast_nonneg k
      have hfuel : (0 : ℚ) ≤ fuel := Nat.cast_nonneg fuel
      rw [Rat.mkRat_eq_div]
      push_cast
      rw [abs_of_nonneg (by positivity)]
      linarith
    rw [searchHalfFifths] at h
    split at h
    · cases h
      exact hhalf
    · split at h
      · cases h
        rwa [abs_neg]
      · have := ih h
        push_cast at this ⊢
        linarith

theorem abs_le_of_master? {q : ℚ} (h : master? flavor size = some q) : |q| ≤ 64 := by
  have hwhole : ∀ {radius fuel} {n : Int}, searchFifths size radius fuel 0 0 = some n →
      fuel ≤ 64 → |(n : ℚ)| ≤ 64 := by
    intro radius fuel n hn hle
    have hbound := abs_le_of_searchFifths hn
    exact_mod_cast hbound.trans (by omega)
  unfold master? at h
  split at h
  · unfold neutralMaster? at h
    split at h
    · cases h
      norm_num
    · split at h
      · next k hk =>
        cases h
        exact hwhole hk (by norm_num)
      · exact (abs_le_of_searchHalfFifths h).trans (by norm_num)
  · unfold formalMaster? at h
    split at h
    · cases h
      norm_num
    · obtain ⟨k, hk, rfl⟩ := Option.map_eq_some_iff.mp h
      exact hwhole hk le_rfl

theorem abs_sub_le_of_foldDown (fuel : Nat) (cents : Float) (twos : ℚ) :
    |(foldDown fuel cents twos).2 - twos| ≤ fuel := by
  induction fuel generalizing cents twos with
  | zero => simp [foldDown]
  | succ fuel ih =>
    rw [foldDown]
    split
    · have := abs_le.mp (ih (cents - Prime.octaveCents) (twos - 1))
      push_cast
      exact abs_le.mpr ⟨by linarith, by linarith⟩
    · simp only [sub_self, abs_zero]
      positivity

theorem abs_sub_le_of_foldUp (fuel : Nat) (cents : Float) (twos : ℚ) :
    |(foldUp fuel cents twos).2 - twos| ≤ fuel := by
  induction fuel generalizing cents twos with
  | zero => simp [foldUp]
  | succ fuel ih =>
    rw [foldUp]
    split
    · have := abs_le.mp (ih (cents + Prime.octaveCents) (twos + 1))
      push_cast
      exact abs_le.mpr ⟨by linarith, by linarith⟩
    · simp only [sub_self, abs_zero]
      positivity

/-- Octaves are taken out of a comma or added to it a limited number of times. -/
theorem abs_sub_le_of_twosFor (size : Float) (threes : ℚ) : |twosFor size threes - threes| ≤ 128 := by
  unfold twosFor
  simp only
  generalize size + _ + _ = cents
  have hdown := abs_le.mp (abs_sub_le_of_foldDown foldLength cents threes)
  generalize foldDown foldLength cents threes = folded at hdown ⊢
  have hup := abs_le.mp (abs_sub_le_of_foldUp foldLength folded.1 folded.2)
  have hlength : (foldLength : ℚ) = 64 := by norm_num [foldLength]
  rw [hlength] at hdown hup
  exact abs_le.mpr ⟨by linarith, by linarith⟩

theorem abs_le_of_twosFor {q : ℚ} (h : |q| ≤ 64) : |twosFor size q| ≤ 256 := by
  have htwos := abs_le.mp (abs_sub_le_of_twosFor size q)
  have hq := abs_le.mp h
  exact abs_le.mpr ⟨by linarith, by linarith⟩

theorem eq_or_eq_of_mem_unit {e : ℚ} (h : e ∈ Monzo.wholes (Prime.unit j)) : e = 0 ∨ e = 1 := by
  obtain ⟨n, hn, rfl⟩ := List.mem_map.mp h
  rw [Prime.unit, List.mem_append, List.mem_replicate, List.mem_singleton] at hn
  rcases hn with ⟨-, rfl⟩ | rfl
  · exact .inl Int.cast_zero
  · exact .inr Int.cast_one

/-- The exponents of a comma are small. -/
theorem abs_le_of_vector? (h : vector? flavor j p = some es) : ∀ e ∈ es, |e| ≤ 256 := by
  obtain ⟨fifths, hmaster, rfl⟩ := Option.map_eq_some_iff.mp h
  have hfifths := abs_le_of_master? hmaster
  rw [List.forall_mem_cons, List.forall_mem_cons, abs_neg]
  refine ⟨abs_le_of_twosFor (by rwa [abs_neg]), hfifths.trans (by norm_num), fun e he => ?_⟩
  rcases eq_or_eq_of_mem_unit he with rfl | rfl <;> norm_num

/-- A value with small exponents of primes of the table, and nothing else. -/
structure IsShort (m : Monzo) : Prop where
  time : m.time = 0
  exps_le : ∀ e ∈ m.exps, |e| ≤ 256
  components_le : m.components ≤ Prime.tableSize
  residual : m.residual = 1
  uncorrected : m.cents == 0

theorem IsShort.of_isVector {t : Settings} {m : Monzo} (hm : m.IsVector t es)
    (hes : ∀ e ∈ es, |e| ≤ 256) (hlen : es.length ≤ Prime.tableSize) : IsShort m :=
  ⟨hm.time, hm.exps.symm ▸ hes, hm.components.trans_le hlen, hm.residual, hm.uncorrected⟩

theorem IsShort.tame {m : Monzo} (h : IsShort m) (F : Fault → Prop) : m.Tame F where
  exps_le := .inr fun e he => (h.exps_le e he).trans <| by
    calc (256 : ℚ) = 2 ^ 8 := by norm_num
      _ ≤ 2 ^ 911 := two_pow_le_two_pow (by norm_num)
  bits_le := .inr (h.residual ▸ Ratio.bits_le_two_pow (m := 1) (by decide) (by norm_num))
  components_le := .inr h.components_le
  vanish := Monzo.vanish_of_length_le h.components_le
  finite := isFinite_of_beq_zero h.uncorrected

/-! ## Looking commas up -/

variable {F : Fault → Prop} {s t : Settings} {m : Monzo} {n : Int} {k : Nat}

/-- The primes two and three are inflected by unity. -/
theorem compute_eq_unity (h : Prime.index? n = some k) (hk : k < 2) :
    compute s n flavor = Monzo.unity s 2 := by
  unfold compute
  rw [h]
  exact if_pos hk

/-- A comma that is found has small exponents. -/
theorem isShort_of_compute (hm : compute t n flavor = .ok m) : IsShort m := by
  unfold compute at hm
  cases hn : Prime.index? n with
  | none => simp [hn] at hm
  | some k =>
    obtain ⟨p, rfl, hp⟩ := Prime.index?_eq_some_iff.mp hn
    by_cases hk : k < 2
    · simp only [hn, if_pos hk] at hm
      have hunit : m.IsVector t [0, 0] := .of_checked hm rfl rfl rfl zero_beq_zero
      exact .of_isVector hunit (by simp) (by simp [Prime.tableSize])
    · obtain ⟨j, rfl⟩ := Nat.exists_eq_add_of_le' (not_lt.mp hk)
      have hcompute : compute t p flavor = .ok m := by
        rw [compute_eq hp]
        simpa [hn] using hm
      obtain ⟨c, hc, hvector⟩ := isVector_of_compute hp hcompute
      have hlt := Prime.lt_tableSize hp
      refine .of_isVector hvector (abs_le_of_vector? hc) ?_
      rw [length_of_vector? hc]
      omega

section
variable (hF : ∀ f : Fault, f.family = .overflow → F f)
include hF

/-- A vector of small exponents exceeds the bounds at worst. -/
theorem meets_checked_short (hs : F .tooLarge ∨ s.absurdExponent ≤ 2 ^ 900)
    (hes : ∀ e ∈ es, |e| ≤ 256) (hlen : es.length ≤ Prime.tableSize) :
    Meets (Monzo.Tame F) F (Monzo.checked s { exps := es }) := by
  refine Monzo.tame_checked hF hs (.inr fun e he => (hes e he).trans ?_) (.inr hlen)
    (Monzo.vanish_of_length_le hlen) (.inr (not_isNaN_of_beq_zero zero_beq_zero))
  calc (256 : ℚ) = 2 ^ 8 := by norm_num
    _ ≤ 2 ^ 1023 := two_pow_le_two_pow (by norm_num)

/-- The comma of a prime is not found when a bound is exceeded, or when it has none. -/
theorem meets_compute (hs : F .tooLarge ∨ s.absurdExponent ≤ 2 ^ 900)
    (hp : Prime.table[k]? = some p)
    (hregion : ∀ j, k = j + 2 → vector? flavor j p = none → F .noRegion) :
    Meets IsShort F (compute s p flavor) := by
  suffices h : Meets (fun _ => True) F (compute s p flavor) from
    (h.and_of_ok fun m hm => isShort_of_compute hm).mono fun _ h => h.2
  by_cases hk : k < 2
  · rw [compute_eq_unity (Prime.index?_eq_some_iff.mpr ⟨p, rfl, hp⟩) hk]
    exact (Monzo.meets_unity hF hs (by simp [Prime.tableSize])).any
  · obtain ⟨j, rfl⟩ := Nat.exists_eq_add_of_le' (not_lt.mp hk)
    have hlt := Prime.lt_tableSize hp
    rw [compute_eq hp, ofIndex]
    cases hmaster : master? flavor (Prime.cents p) with
    | none => exact hregion j rfl (by rw [vector?, hmaster]; rfl)
    | some fifths =>
      have hfifths := abs_le_of_master? hmaster
      have hpure : ∀ e ∈ [twosFor (Prime.cents p) (-fifths), -fifths], |e| ≤ 256 := by
        simp only [List.mem_cons, List.not_mem_nil, or_false, forall_eq_or_imp, forall_eq, abs_neg]
        exact ⟨abs_le_of_twosFor (by rwa [abs_neg]), hfifths.trans (by norm_num)⟩
      refine (meets_checked_short hF hs hpure (by simp [Prime.tableSize])).bind fun a ha => ?_
      have hunit : ∀ e ∈ Monzo.wholes (Prime.unit (j + 2)), |e| ≤ 256 := fun e he => by
        rcases eq_or_eq_of_mem_unit he with rfl | rfl <;> norm_num
      have hlen : (Monzo.wholes (Prime.unit (j + 2))).length ≤ Prime.tableSize := by
        rw [Monzo.length_wholes, Prime.length_unit]
        omega
      rw [ofRatioOver_prime hp]
      refine (meets_checked_short hF hs hunit hlen).bind fun b hb => ?_
      exact (Monzo.meets_mul hF hs ha hb).any

end

end Comma

/-! ## Inflecting -/

/-- An inflection by a positive number whose faults are permitted: those of a number that has no
factorization over the table, or that is astronomical, and those of a prime without a comma. -/
structure Inflection.Harmless (F : Fault → Prop) (i : Inflection) : Prop where
  pos : 0 < i.number
  factored : Prime.limit? i.number = none → F (.primeBeyondTable i.number)
  small : F .tooLarge ∨ Ratio.bits i.number ≤ 2 ^ 100
  region : ∀ j p : Nat, Prime.table[j + 2]? = some p → (p : Int) ∣ i.number →
    Comma.vector? i.flavor j p = none → F .noRegion

/-- A run that looks a comma up. -/
theorem run_comma (s : Settings) (key : CommaKey) (memo : CommaMemo) :
    (comma s key).run.run memo =
      match memo.lookup key with
      | some m => (.ok m, memo)
      | none =>
        match Comma.compute s key.prime (key.flavor.getD "") with
        | .ok m => (.ok m, (key, m) :: memo)
        | .error fault => (.error fault, memo) := by
  unfold comma
  rw [Memoized.run_bind, show (get : Memoized CommaMemo).run.run memo = (.ok memo, memo) from rfl]
  simp only
  cases memo.lookup key with
  | some m => rfl
  | none =>
    simp only
    rw [Memoized.run_bind]
    cases Comma.compute s key.prime (key.flavor.getD "") <;> rfl

section
variable {F : Fault → Prop} {s : Settings} {flavor : String} {v : Value} {k p : Nat}
  (hF : ∀ f : Fault, f.family = .overflow → F f)
include hF

/-- The comma filed or found anew under a prime of the table. -/
theorem meets_comma (hs : F .tooLarge ∨ s.absurdExponent ≤ 2 ^ 900)
    (hp : Prime.table[k]? = some p)
    (hregion : ∀ j, k = j + 2 → Comma.vector? flavor j p = none → F .noRegion) :
    Memoized.Meets Comma.IsShort F (comma s { prime := p, flavor := some flavor }) := by
  intro memo hmemo
  have hcompute := Comma.meets_compute hF hs hp hregion
  rw [run_comma]
  cases hlookup : memo.lookup { prime := p, flavor := some flavor } with
  | some m =>
    obtain ⟨t, ht⟩ := hmemo.found _ m hlookup
    exact ⟨hmemo, Comma.isShort_of_compute ht⟩
  | none =>
    simp only [Option.getD_some]
    cases hm : Comma.compute s p flavor with
    | error fault =>
      rw [hm] at hcompute
      exact ⟨hmemo, hcompute⟩
    | ok m => exact ⟨hmemo.cons hm, Comma.isShort_of_compute hm⟩

variable {apply : Value → Value → Except Fault Value}
  (happly : ∀ v w, v.Tame F → w.Tame F → Meets (Value.Tame F) F (apply v w))
include happly

/-- Commas of primes of the table are applied one after the other. -/
theorem meets_applyCommas (hs : F .tooLarge ∨ s.absurdExponent ≤ 2 ^ 900)
    {pairs : List (Nat × Int)}
    (hpairs : ∀ pe ∈ pairs, pe.2 ≠ 0 → ∃ k, Prime.table[k]? = some pe.1 ∧
      (∀ j, k = j + 2 → Comma.vector? flavor j pe.1 = none → F .noRegion) ∧
      (F .tooLarge ∨ |(pe.2 : ℚ)| ≤ 2 ^ 100)) (hv : v.Tame F) :
    Memoized.Meets (Value.Tame F) F (applyCommas s flavor apply pairs v) := by
  induction pairs generalizing v with
  | nil => exact .pure hv
  | cons pe pairs ih =>
    obtain ⟨p, e⟩ := pe
    rw [List.forall_mem_cons] at hpairs
    rw [applyCommas]
    split
    · exact ih hpairs.2 hv
    · next he =>
      obtain ⟨k, hp, hregion, hsmall⟩ := hpairs.1 he
      refine (meets_comma hF hs hp hregion).bind fun c hc => ?_
      have hscaled : F .tooLarge ∨ ∀ x ∈ c.exps, |x * (e : ℚ)| ≤ 2 ^ 1023 := by
        refine hsmall.imp_right fun hsmall x hx => ?_
        have h256 : |x| ≤ 2 ^ 8 := (hc.exps_le x hx).trans (by norm_num)
        exact (abs_mul_le_two_pow h256 hsmall).trans (two_pow_le_two_pow (by norm_num))
      have hdouble : F .tooLarge ∨ |(e : ℚ)| ≤ 2 ^ 1023 :=
        hsmall.imp_right (le_trans · (two_pow_le_two_pow (by norm_num)))
      have hpower : Meets (Value.Tame F) F (c.powRatio s e) :=
        Monzo.meets_powRatio hF hs (hc.tame F) hc.time (hc.residual ▸ one_pos) (.inl hc.residual)
          hdouble hscaled
      refine (Memoized.Meets.ofExcept hpower).bind fun w hw => ?_
      refine (Memoized.Meets.ofExcept (happly v w hv hw)).bind fun v' hv' => ?_
      exact ih hpairs.2 hv'

/-- A row of harmless inflections is applied in turn. -/
theorem meets_applyInflections (hs : F .tooLarge ∨ s.absurdExponent ≤ 2 ^ 900)
    {row : List Inflection} (hrow : ∀ i ∈ row, i.Harmless F) (hv : v.Tame F) :
    Memoized.Meets (Value.Tame F) F (applyInflections s apply row v) := by
  induction row generalizing v with
  | nil => exact .pure hv
  | cons i row ih =>
    rw [List.forall_mem_cons] at hrow
    obtain ⟨hi, hrow⟩ := hrow
    have hpos : (0 : ℚ) < i.number := by exact_mod_cast hi.pos
    rw [applyInflections]
    rcases Monzo.factorCompletely_cases hpos with ⟨count, hcount, hfactor⟩ | ⟨hlimit, hfactor⟩
    · rw [hfactor]
      refine Memoized.Meets.bind (P := (· = _)) (.ofExcept rfl) ?_
      rintro _ rfl
      refine (meets_applyCommas hF happly hs ?_ hv).bind fun w hw => ih hrow hw
      rintro ⟨p, e⟩ hpe he
      obtain ⟨k, hk⟩ := List.mem_iff_getElem?.mp hpe
      obtain ⟨hp, -⟩ := List.getElem?_zip_eq_some.mp hk
      have hdvd := Prime.dvd_of_mem_zip_split hi.pos.ne' hpe he
      refine ⟨k, hp, fun j hj => hi.region j p (hj ▸ hp) hdvd, hi.small.imp_right fun hbits => ?_⟩
      exact (Prime.abs_le_of_mem_split (Prime.distinct_table.take count) _ e
        (List.of_mem_zip hpe).2).trans (Ratio.cast_bits_le hbits)
    · rw [hfactor, rat_abs_eq, abs_of_pos hpos]
      have hfails : Meets (fun _ => False) F
          (.error (.primeBeyondTable i.number) : Except Fault (List Int)) := hi.factored hlimit
      exact (Memoized.Meets.ofExcept hfails).bind fun _ h => h.elim

end

section
variable {F : Fault → Prop} {s : Settings} {superscripts subscripts : List Inflection}
  (hF : ∀ f : Fault, f.family = .overflow → F f)
  (hraised : ∀ i ∈ superscripts, i.Harmless F) (hlowered : ∀ i ∈ subscripts, i.Harmless F)
include hF hraised hlowered

/-- The product of the commas of harmless inflections. -/
theorem meets_inflection (hs : F .tooLarge ∨ s.absurdExponent ≤ 2 ^ 900) :
    Memoized.Meets (Value.Tame F) F (inflection s superscripts subscripts) := by
  have hunity : Meets (fun m => Value.Tame F (.exact m)) F (Monzo.unity s 2) :=
    (Monzo.meets_unity hF hs (by simp [Prime.tableSize])).mono fun _ h => h.2
  exact (Memoized.Meets.ofExcept hunity).bind fun one hone =>
    (meets_applyInflections hF (fun v w => Value.meets_mul hF hs) hs hraised hone).bind
      fun w hw => meets_applyInflections hF (fun v w => Value.meets_div hF hs) hs hlowered hw

/-- Harmless inflections fail with the permitted faults alone. -/
theorem meets_inflect (hs : F .tooLarge ∨ s.absurdExponent ≤ 2 ^ 900) {v : Value}
    (hv : v.Tame F) : Memoized.Meets (Value.Tame F) F (inflect s v superscripts subscripts) :=
  (meets_inflection hF hraised hlowered hs).bind fun _ hc =>
    .ofExcept (Value.meets_mul hF hs hv hc)

end

end Intonation
