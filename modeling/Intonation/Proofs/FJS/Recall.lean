import Intonation.Proofs.FJS.Faults
import Intonation.Proofs.FJS.Splitting

/-!
# Commas recalled

A comma is found once and recalled from then on, whatever the settings are by then. A comma that
is recalled has not been checked against the bounds in force. It is only ever raised to a whole
power, though, and a power exceeds the bounds whenever the comma itself does. What is computed by
commas therefore does not depend on the commas found so far, up to the faults by which a power
fails.

## Main definitions

* `Agree F`: equal outcomes, or failures by faults in `F` on both sides
* `Memoized.Steady F`: a computation whose outcomes agree whatever commas have been found

## Main statements

* `Comma.compute_unique`: a comma is the same under all settings
* `Comma.exists_compute_of_powRatio`: a comma with a power within the bounds is found anew
* `steady_power`: powers of commas
* `steady_inflect`, `steady_spellInterval`, `steady_spellPitch`: what is computed by them
-/

namespace Intonation
open Double

/-! ## Agreement -/

/-- Equal outcomes, or failures by faults in `F` on both sides. -/
inductive Agree {α : Type} (F : Fault → Prop) : Except Fault α → Except Fault α → Prop
  | same (x : Except Fault α) : Agree F x x
  | fail {f g : Fault} (hf : F f) (hg : F g) : Agree F (.error f) (.error g)

namespace Agree

variable {α : Type} {F : Fault → Prop} {x y z : Except Fault α}

theorem symm (h : Agree F x y) : Agree F y x := by
  cases h with
  | same => exact .same x
  | fail hf hg => exact .fail hg hf

theorem trans (hxy : Agree F x y) (hyz : Agree F y z) : Agree F x z := by
  cases hxy with
  | same => exact hyz
  | fail hf hg =>
    cases hyz with
    | same => exact .fail hf hg
    | fail hg hh => exact .fail hf hh

/-- Outcomes that agree are equal, or both are failures where faults may differ. -/
theorem eq_or {p : Prop} (h : Agree (fun _ => p) x y) :
    x = y ∨ p ∧ (∃ f, x = .error f) ∧ ∃ g, y = .error g := by
  cases h with
  | same => exact .inl rfl
  | fail hf => exact .inr ⟨hf, ⟨_, rfl⟩, ⟨_, rfl⟩⟩

/-- Without faults that may differ, outcomes are equal. -/
theorem eq (h : Agree (fun _ => False) x y) : x = y := h.eq_or.resolve_right And.left

end Agree

/-- Runs from sound commas end with sound commas, and their outcomes agree. -/
def Memoized.Steady {α : Type} (F : Fault → Prop) (x : Memoized α) : Prop :=
  ∀ memo memo' : CommaMemo, memo.Sound → memo'.Sound →
    (x.run.run memo).2.Sound ∧ Agree F (x.run.run memo).1 (x.run.run memo').1

namespace Memoized.Steady

variable {α β : Type} {F G : Fault → Prop} {x : Memoized α}

theorem ofExcept (r : Except Fault α) : Steady F (ofExcept r) :=
  fun _ _ hmemo _ => ⟨hmemo, .same r⟩

theorem pure (a : α) : Steady F (Pure.pure a) := fun _ _ hmemo _ => ⟨hmemo, .same (.ok a)⟩

theorem bind {f : α → Memoized β} (h : Steady F x) (hf : ∀ a, Steady F (f a)) :
    Steady F (x >>= f) := by
  intro memo memo' hmemo hmemo'
  obtain ⟨hsound, hagree⟩ := h memo memo' hmemo hmemo'
  obtain ⟨hsound', -⟩ := h memo' memo hmemo' hmemo
  rw [run_bind, run_bind]
  rcases hx : x.run.run memo with ⟨outcome, rest⟩
  rcases hx' : x.run.run memo' with ⟨outcome', rest'⟩
  rw [hx] at hsound hagree
  rw [hx'] at hsound' hagree
  cases hagree with
  | same =>
    cases outcome with
    | error fault => exact ⟨hsound, .same _⟩
    | ok a => exact hf a rest rest' hsound hsound'
  | fail hg hg' => exact ⟨hsound, .fail hg hg'⟩

/-- A step that looks nothing up only leaves what it returns to the rest. -/
theorem ofExcept_bind {r : Except Fault α} {f : α → Memoized β}
    (hf : ∀ a, r = .ok a → Steady F (f a)) : Steady F (Memoized.ofExcept r >>= f) := by
  cases r with
  | error fault => exact fun _ _ hmemo _ => ⟨hmemo, .same (.error fault)⟩
  | ok a => exact hf a rfl

/-- Faults of which any two that may differ are replaced by one fault. -/
theorem rename {replace : Fault → Fault} (h : Steady F x)
    (hreplace : ∀ f g, F f → F g → Agree G (.error (replace f) : Except Fault α)
      (.error (replace g))) :
    Steady G (tryCatch x fun fault => throw (replace fault)) := by
  intro memo memo' hmemo hmemo'
  obtain ⟨hsound, hagree⟩ := h memo memo' hmemo hmemo'
  rw [run_tryCatch, run_tryCatch]
  rcases hx : x.run.run memo with ⟨outcome, rest⟩
  rcases hx' : x.run.run memo' with ⟨outcome', rest'⟩
  rw [hx] at hsound hagree
  rw [hx'] at hagree
  cases hagree with
  | same => cases outcome <;> exact ⟨hsound, .same _⟩
  | fail hf hg => exact ⟨hsound, hreplace _ _ hf hg⟩

/-- Giving up hides the faults that may differ. -/
theorem giveUp {x : Memoized (Option α)} (h : Steady (fun f => f.isArithmetic = true) x) :
    Steady F (giveUp x) := by
  intro memo memo' hmemo hmemo'
  obtain ⟨hsound, hagree⟩ := h memo memo' hmemo hmemo'
  rw [run_giveUp, run_giveUp]
  rcases hx : x.run.run memo with ⟨outcome, rest⟩
  rcases hx' : x.run.run memo' with ⟨outcome', rest'⟩
  rw [hx] at hsound hagree
  rw [hx'] at hagree
  cases hagree with
  | same =>
    cases outcome with
    | ok found => exact ⟨hsound, .same _⟩
    | error fault =>
      simp only
      split <;> exact ⟨hsound, .same _⟩
  | fail hf hg =>
    simp only [hf, hg, if_true]
    exact ⟨hsound, .same _⟩

end Memoized.Steady

/-! ## Commas under other settings -/

namespace Comma

variable {s t : Settings} {m m' : Monzo} {c : List ℚ} {flavor : String} {j p : Nat} {n : Int}

/-- A comma of a prime from five up is found as its vector, without a correction. -/
theorem eq_of_compute (h : Prime.table[j + 2]? = some p) (hm : compute s p flavor = .ok m) :
    ∃ c, vector? flavor j p = some c ∧ m = { exps := c, cents := 0 + 0 } := by
  obtain ⟨c, hc, hvector⟩ := isVector_of_compute h hm
  refine ⟨c, hc, ?_⟩
  rw [compute_eq h, ofIndex] at hm
  split at hm
  · cases hm
  · obtain ⟨fifthPart, hfifth, hm⟩ := bind_eq_ok.mp hm
    obtain ⟨primePart, hprime, hm⟩ := bind_eq_ok.mp hm
    rw [ofRatioOver_prime h] at hprime
    obtain ⟨-, rfl⟩ := Monzo.checked_eq_ok_iff.mp hfifth
    obtain ⟨-, rfl⟩ := Monzo.checked_eq_ok_iff.mp hprime
    obtain ⟨-, -, -, hcents, -⟩ := Monzo.parts_of_mul hm
    obtain ⟨time, exps, residual, cents⟩ := m
    obtain ⟨rfl, rfl, rfl, -, -⟩ := hvector
    rw [show cents = 0 + 0 from hcents]

/-- A comma is the same under all settings under which it is found. -/
theorem compute_unique (hm : compute s n flavor = .ok m) (hm' : compute t n flavor = .ok m') :
    m = m' := by
  cases hn : Prime.index? n with
  | none => simp [compute, hn] at hm
  | some k =>
    obtain ⟨p, rfl, hp⟩ := Prime.index?_eq_some_iff.mp hn
    by_cases hk : k < 2
    · rw [compute_eq_unity hn hk] at hm hm'
      obtain ⟨-, rfl⟩ := Monzo.checked_eq_ok_iff.mp hm
      obtain ⟨-, rfl⟩ := Monzo.checked_eq_ok_iff.mp hm'
      rfl
    · obtain ⟨j, rfl⟩ := Nat.exists_eq_add_of_le' (not_lt.mp hk)
      obtain ⟨c, hc, rfl⟩ := eq_of_compute hp hm
      obtain ⟨c', hc', rfl⟩ := eq_of_compute hp hm'
      rw [Option.some.inj (hc.symm.trans hc')]

/-- A product of two vectors of small exponents exceeds the bounds at worst. -/
theorem family_of_mul_short {a b : Monzo} {es fs : List ℚ} (ha : a.IsVector s es)
    (hb : b.IsVector s fs) (hes : ∀ e ∈ es, |e| ≤ 256) (hfs : ∀ e ∈ fs, |e| ≤ 256)
    (hlen : es.length ≤ Prime.tableSize) (hlen' : fs.length ≤ Prime.tableSize) {f : Fault}
    (hf : a.mul s b = .error f) : f.family = .overflow := by
  obtain ⟨x, y, halign⟩ := ha.exists_align hb hlen hlen'
  obtain ⟨hx, hy⟩ := ha.align hb halign
  obtain ⟨hxlen, -⟩ := Monzo.components_of_align halign
  have hpadded : ∀ {gs : List ℚ} {count : Nat}, (∀ g ∈ gs, |g| ≤ 256) →
      ∀ g ∈ padded count gs, |g| ≤ 256 := by
    intro gs count hgs g hg
    rcases List.mem_append.mp hg with hg | hg
    · exact hgs g hg
    · rw [List.eq_of_mem_replicate hg, abs_zero]
      norm_num
  rw [Monzo.mul, halign] at hf
  replace hf : Monzo.checked s {
      time := x.time + y.time
      exps := x.exps.zipWith (· + ·) y.exps
      residual := x.residual * y.residual
      cents := x.cents + y.cents } = .error f := hf
  refine Monzo.family_of_checked ?_ ?_ ?_ hf
  · show (x.exps.zipWith (· + ·) y.exps).length ≤ _
    rw [List.length_zipWith]
    refine (min_le_left _ _).trans ?_
    rw [show x.exps.length = _ from hxlen, ha.components, hb.components]
    exact max_le hlen hlen'
  · show ∀ e ∈ x.exps.zipWith (· + ·) y.exps, |e| ≤ 2 ^ 60
    intro e he
    obtain ⟨g, hg, k, hk, rfl⟩ := Monzo.exists_of_mem_zipWith he
    have hgle := hpadded hes g (hx.exps ▸ hg)
    have hkle := hpadded hfs k (hy.exps ▸ hk)
    calc |g + k| ≤ |g| + |k| := abs_add_le g k
      _ ≤ 2 ^ 60 := by linarith
  · exact add_beq_zero hx.uncorrected hy.uncorrected

/-- A comma that is found under some settings exceeds the bounds of others at worst. -/
theorem family_of_compute (h : Prime.table[j + 2]? = some p) (hc : vector? flavor j p = some c)
    {f : Fault} (hf : compute s p flavor = .error f) : f.family = .overflow := by
  have hlt := Prime.lt_tableSize h
  have hshort := abs_le_of_vector? hc
  obtain ⟨fifths, hfifths, rfl⟩ := Option.map_eq_some_iff.mp hc
  rw [List.forall_mem_cons, List.forall_mem_cons] at hshort
  obtain ⟨htwos, hthrees, -⟩ := hshort
  have hpure : ∀ e ∈ [twosFor (Prime.cents p) (-fifths), -fifths], |e| ≤ 256 :=
    List.forall_mem_cons.mpr ⟨htwos, List.forall_mem_singleton.mpr hthrees⟩
  have hunit : ∀ e ∈ Monzo.wholes (Prime.unit (j + 2)), |e| ≤ 256 := fun e he => by
    rcases eq_or_eq_of_mem_unit he with rfl | rfl <;> norm_num
  have hpurelen : [twosFor (Prime.cents p) (-fifths), -fifths].length ≤ Prime.tableSize :=
    show 2 ≤ Prime.tableSize by omega
  have hunitlen : (Monzo.wholes (Prime.unit (j + 2))).length ≤ Prime.tableSize := by
    rw [Monzo.length_wholes, Prime.length_unit]
    omega
  have hchecked : ∀ {es : List ℚ}, es.length ≤ Prime.tableSize → (∀ e ∈ es, |e| ≤ 256) →
      ∀ {f : Fault}, Monzo.checked s { exps := es } = .error f → f.family = .overflow :=
    fun {es} hlen hes _ hf => Monzo.family_of_checked (n := { exps := es }) hlen
      (fun e he => (hes e he).trans (by norm_num)) zero_beq_zero hf
  -- a comma is a product of twos and threes with a prime, and any of the three may be refused
  rw [compute_eq h, ofIndex] at hf
  simp only [hfifths] at hf
  cases hfifth : Monzo.checked s { exps := [twosFor (Prime.cents p) (-fifths), -fifths] } with
  | error g =>
    rw [hfifth] at hf
    cases hf
    exact hchecked hpurelen hpure hfifth
  | ok fifthPart =>
    cases hprime : Monzo.ofRatioOver s (j + 2 + 1) p with
    | error g =>
      rw [hfifth, hprime] at hf
      cases hf
      rw [ofRatioOver_prime h] at hprime
      exact hchecked hunitlen hunit hprime
    | ok primePart =>
      rw [hfifth, hprime] at hf
      rw [ofRatioOver_prime h] at hprime
      exact family_of_mul_short (.of_checked hfifth rfl rfl rfl zero_beq_zero)
        (.of_checked hprime rfl rfl rfl zero_beq_zero) hpure hunit hpurelen hunitlen hf

/-- A whole power of a vector scales its exponents. -/
theorem powRatio_eq (hm : m.residual = 1) (hs : s.Valid) (e : Int) : m.powRatio s e = (do
    let x ← (Number.ratio e).toDouble
    let power ← Monzo.checked s {
      time := m.time * e
      exps := m.exps.map (· * (e : ℚ))
      residual := 1
      cents := m.cents * x }
    .ok (.exact power)) := by
  have hden : ¬ s.maxPowDenominator ≤ (e : ℚ).den := by
    rw [Rat.den_intCast]
    exact not_le.mpr hs.pow_gt_one
  have hsmall : Monzo.residualOverflows s m.residual e = false := by
    simp [Monzo.residualOverflows, hm]
  rw [Monzo.powRatio, if_neg hden, hsmall, if_neg Bool.false_ne_true, hm, Ratio.pow?_one]

/-- A comma with a power within the bounds is found anew. -/
theorem exists_compute_of_powRatio (h : Prime.table[j + 2]? = some p) (hs : s.Valid)
    (hm : compute t p flavor = .ok m) {e : Int} (he : e ≠ 0) {v : Value}
    (hv : m.powRatio s e = .ok v) : ∃ n, compute s p flavor = .ok n := by
  obtain ⟨c, hc, rfl⟩ := eq_of_compute h hm
  rw [powRatio_eq rfl hs] at hv
  obtain ⟨x, -, hv⟩ := bind_eq_ok.mp hv
  obtain ⟨power, hpower, -⟩ := bind_eq_ok.mp hv
  obtain ⟨hbounded, -⟩ := Monzo.checked_eq_ok_iff.mp hpower
  obtain ⟨hexps, hrest⟩ := Monzo.boundsFault?_eq_none_iff.mp hbounded
  -- a whole factor that is not zero makes no exponent smaller
  have hle : List.Forall₂ (fun f g : ℚ => |f| ≤ |g|) c (c.map (· * (e : ℚ))) := by
    rw [List.forall₂_map_right_iff, List.forall₂_same]
    intro f _
    have hone : (1 : ℚ) ≤ |(e : ℚ)| := by exact_mod_cast Int.one_le_abs he
    rw [abs_mul]
    exact le_mul_of_one_le_right (abs_nonneg f) hone
  have hvector : Monzo.IsVector s { exps := c } c :=
    ⟨rfl, rfl, rfl, zero_beq_zero, Monzo.bounded_of_uncorrected
      (Monzo.exponentFault?_of_le (Monzo.centsBound_nonneg s)
        (fun _ => Prime.isFull_of_mem_measures) hle hexps) hrest.bits_le zero_beq_zero⟩
  exact exists_compute h hc hvector

/-- A power of a comma exceeds the bounds at worst, unless the exponent is astronomical. -/
theorem meets_powRatio_comma {F : Fault → Prop} (hF : ∀ f : Fault, f.family = .overflow → F f)
    (hs : s.Valid) (hm : compute t n flavor = .ok m) {e : Int}
    (he : F .tooLarge ∨ |(e : ℚ)| ≤ 2 ^ 100) :
    Meets (fun _ => True) F (m.powRatio s e) := by
  have hshort := isShort_of_compute hm
  rw [powRatio_eq hshort.residual hs]
  refine (Number.meets_toDouble (he.imp_right (le_trans · (two_pow_le_two_pow (by norm_num))))).bind
    fun x hx => ?_
  refine (Monzo.meets_checked hF ?_ (.inr ?_) (.inr ?_)).bind fun _ _ => trivial
  · refine he.imp_right fun he f hf => ?_
    obtain ⟨g, hg, rfl⟩ := List.mem_map.mp hf
    have hsmall : |g| ≤ 2 ^ 8 := (hshort.exps_le g hg).trans (by norm_num)
    exact (abs_mul_le_two_pow hsmall he).trans (two_pow_le_two_pow (by norm_num))
  · refine Monzo.vanish_of_length_le ?_
    rw [List.length_map]
    exact hshort.components_le
  · exact not_isNaN_of_beq_zero (beq_zero_mul hshort.uncorrected hx)

end Comma

/-! ## Powers of commas -/

section
variable {F : Fault → Prop} (hF : ∀ f : Fault, f.family = .overflow → F f) {s : Settings}
  (hs : s.Valid)
include hF hs

/-- A power of a comma that is recalled agrees with the power of the comma found anew. -/
theorem agree_power {t : Settings} {k p : Nat} {flavor : String} {m : Monzo} {e : Int}
    (hp : Prime.table[k]? = some p) (hm : Comma.compute t p flavor = .ok m) (he : e ≠ 0)
    (hsmall : F .tooLarge ∨ |(e : ℚ)| ≤ 2 ^ 100) :
    Agree F (m.powRatio s e) (Comma.compute s p flavor >>= fun c => c.powRatio s e) := by
  cases hfresh : Comma.compute s p flavor with
  | ok c =>
    rw [Comma.compute_unique hm hfresh]
    exact .same _
  | error f =>
    by_cases hk : k < 2
    · rw [Comma.compute_eq_unity (Prime.index?_eq_some_iff.mpr ⟨p, rfl, hp⟩) hk,
        Monzo.unity_eq hs.absurd_pos] at hfresh
      cases hfresh
    · obtain ⟨j, rfl⟩ := Nat.exists_eq_add_of_le' (not_lt.mp hk)
      obtain ⟨c, hc, -⟩ := Comma.isVector_of_compute hp hm
      have hmeets := Comma.meets_powRatio_comma hF hs hm hsmall
      cases hpower : m.powRatio s e with
      | ok v =>
        obtain ⟨n, hn⟩ := Comma.exists_compute_of_powRatio hp hs hm he hpower
        rw [hfresh] at hn
        cases hn
      | error g =>
        rw [hpower] at hmeets
        exact .fail hmeets (hF f (Comma.family_of_compute hp hc hfresh))

omit hF hs in
/-- The commas filed stay sound when one is looked up. -/
theorem sound_comma {memo : CommaMemo} (hmemo : memo.Sound) (key : CommaKey) :
    ((comma s key).run.run memo).2.Sound := by
  rw [run_comma]
  cases memo.lookup key with
  | some m => exact hmemo
  | none =>
    simp only
    cases hm : Comma.compute s key.prime (key.flavor.getD "") with
    | error f => exact hmemo
    | ok m => exact hmemo.cons hm

/-- The power of a comma does not depend on the commas found so far. -/
theorem steady_power {k p : Nat} {flavor : String} {e : Int} (hp : Prime.table[k]? = some p)
    (he : e ≠ 0) (hsmall : F .tooLarge ∨ |(e : ℚ)| ≤ 2 ^ 100) :
    Memoized.Steady F (do
      let c ← comma s { prime := p, flavor := some flavor }
      Memoized.ofExcept (c.powRatio s e)) := by
  -- every run agrees with the run that finds the comma anew
  have hfresh : ∀ memo : CommaMemo, memo.Sound → Agree F
      ((do
        let c ← comma s { prime := p, flavor := some flavor }
        Memoized.ofExcept (c.powRatio s e) : Memoized Value).run.run memo).1
      (Comma.compute s p flavor >>= fun c => c.powRatio s e) := by
    intro memo hmemo
    rw [Memoized.run_bind, run_comma]
    cases hlookup : memo.lookup { prime := p, flavor := some flavor } with
    | some m =>
      obtain ⟨t, ht⟩ := hmemo.found _ m hlookup
      exact agree_power hF hs hp ht he hsmall
    | none =>
      simp only [Option.getD_some]
      cases Comma.compute s p flavor <;> exact .same _
  intro memo memo' hmemo hmemo'
  refine ⟨?_, (hfresh memo hmemo).trans (hfresh memo' hmemo').symm⟩
  have hsound := sound_comma (s := s) hmemo { prime := p, flavor := some flavor }
  rw [Memoized.run_bind]
  rcases hrun : (comma s { prime := p, flavor := some flavor }).run.run memo with ⟨outcome, rest⟩
  rw [hrun] at hsound
  cases outcome <;> exact hsound

/-! ## Inflecting -/

/-- Commas are applied as if each of them was found anew. -/
theorem steady_applyCommas {flavor : String} {apply : Value → Value → Except Fault Value}
    {pairs : List (Nat × Int)} (hpairs : ∀ pe ∈ pairs, pe.1 ∈ Prime.table ∧
      (F .tooLarge ∨ |(pe.2 : ℚ)| ≤ 2 ^ 100)) (v : Value) :
    Memoized.Steady F (applyCommas s flavor apply pairs v) := by
  induction pairs generalizing v with
  | nil => exact .pure v
  | cons pe pairs ih =>
    obtain ⟨p, e⟩ := pe
    rw [List.forall_mem_cons] at hpairs
    obtain ⟨⟨hmem, hsmall⟩, hpairs⟩ := hpairs
    obtain ⟨k, hp⟩ := List.mem_iff_getElem?.mp hmem
    rw [applyCommas]
    split
    · exact ih hpairs v
    · next he =>
      rw [← bind_assoc]
      exact (steady_power hF hs hp he hsmall).bind fun power =>
        Memoized.Steady.ofExcept_bind fun w _ => ih hpairs w

/-- A row of inflections is applied as if its commas were found anew. -/
theorem steady_applyInflections {apply : Value → Value → Except Fault Value} {row : List Inflection}
    (hrow : ∀ i ∈ row, F .tooLarge ∨ Ratio.bits i.number ≤ 2 ^ 100) (v : Value) :
    Memoized.Steady F (applyInflections s apply row v) := by
  induction row generalizing v with
  | nil => exact .pure v
  | cons i row ih =>
    rw [List.forall_mem_cons] at hrow
    rw [applyInflections]
    refine Memoized.Steady.ofExcept_bind fun exponents hexponents => ?_
    refine (steady_applyCommas hF hs ?_ v).bind fun w => ih hrow.2 w
    obtain ⟨limit, -, hexponents⟩ := bind_eq_ok.mp hexponents
    obtain ⟨parts, hparts, hexponents⟩ := bind_eq_ok.mp hexponents
    obtain ⟨-, rfl⟩ := Monzo.factor_eq_ok_iff.mp hparts
    split at hexponents
    · cases hexponents
      rintro ⟨p, e⟩ hpe
      obtain ⟨hp, he⟩ := List.of_mem_zip hpe
      refine ⟨hp, hrow.1.imp_right fun hbits => ?_⟩
      exact (Prime.abs_le_of_mem_split (Prime.distinct_table.take limit) _ e he).trans
        (Ratio.cast_bits_le hbits)
    · cases hexponents

theorem steady_inflection {superscripts subscripts : List Inflection}
    (hrows : ∀ i ∈ superscripts ++ subscripts, F .tooLarge ∨ Ratio.bits i.number ≤ 2 ^ 100) :
    Memoized.Steady F (inflection s superscripts subscripts) := by
  rw [List.forall_mem_append] at hrows
  exact Memoized.Steady.ofExcept_bind fun one _ =>
    (steady_applyInflections hF hs hrows.1 _).bind fun raised =>
      steady_applyInflections hF hs hrows.2 raised

/-- A value is inflected as if the commas were found anew. -/
theorem steady_inflect {superscripts subscripts : List Inflection}
    (hrows : ∀ i ∈ superscripts ++ subscripts, F .tooLarge ∨ Ratio.bits i.number ≤ 2 ^ 100)
    (v : Value) : Memoized.Steady F (inflect s v superscripts subscripts) :=
  (steady_inflection hF hs hrows).bind fun commas => .ofExcept (v.mul s commas)

end

/-! ## Spelling -/

section
variable {F : Fault → Prop} {s : Settings} (hs : s.Valid) (m : Monzo) (flavor : String)
include hs

/-- Splitting a value off its commas gives up where a comma found anew exceeds the bounds, and where
the power of a comma does. -/
theorem steady_skeletonOf : Memoized.Steady F (skeletonOf s m flavor) := by
  have hF : ∀ f : Fault, f.family = .overflow → f.isArithmetic = true := fun f hf => by
    rw [Fault.isArithmetic, hf]
  have huninflect :
      Memoized.Steady (fun f => f.isArithmetic = true) (some <$> uninflect s m flavor) := by
    rw [map_eq_pure_bind]
    refine Memoized.Steady.bind ?_ fun found => .pure (some found)
    exact Memoized.Steady.ofExcept_bind fun vector _ => Memoized.Steady.ofExcept_bind
      fun (superscripts, subscripts) _ =>
        (steady_inflection hF hs fun _ _ => .inl rfl).bind fun commas =>
          (Memoized.Steady.ofExcept _).bind fun base => .pure _
  unfold skeletonOf
  split
  · refine (Memoized.Steady.giveUp huninflect).bind fun found => ?_
    split
    · split <;> exact .pure _
    · exact .pure none
  · exact .pure none

theorem steady_spellInterval : Memoized.Steady F (spellInterval s m flavor) := by
  refine (steady_skeletonOf hs m flavor).bind fun found => ?_
  split
  · exact .pure none
  · refine (Memoized.Steady.ofExcept _).bind fun name => ?_
    split
    · exact .pure none
    · exact (Memoized.Steady.ofExcept _).bind fun inflections => .pure _

theorem steady_spellPitch : Memoized.Steady F (spellPitch s m flavor) := by
  refine (steady_skeletonOf hs m flavor).bind fun found => ?_
  split
  · exact .pure none
  · refine (Memoized.Steady.ofExcept _).bind fun name => ?_
    split
    · exact .pure none
    · exact (Memoized.Steady.ofExcept _).bind fun inflections => .pure _

end

end Intonation
