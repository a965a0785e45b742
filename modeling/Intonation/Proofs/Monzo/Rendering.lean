import Intonation.Monzo.Text
import Intonation.Proofs.Monzo.Equave
import Intonation.Proofs.Monzo.Number
import Intonation.Proofs.Text.Separators

/-!
# What the text of a value tells

The text of an exact value tells the value. In the linear domain the time units stand after the
first blank, and a ratio, a power of a ratio and a product of powers of primes are told apart by
their marks. In the logarithmic domain steps and vectors are, and each of them tells the exponents.
Values of one text are strictly equal unless they cannot be compared.

## Main definitions

* `powerText`: a number raised to a power
* `Monzo.LinearBody`: the text of a value in front of its unit
* `Monzo.SizeText`: the text of a rational power of a ratio as an interval

## Main statements

* `unitSuffix_injective`: the time units
* `LinearBody.number_eq`: the number in front of the unit
* `SizeText.getD_eq`: the exponents of an interval
* `Monzo.text_exact`: values with one text
-/

namespace Intonation
open Text

/-! ## Powers and units -/

/-- A number raised to a power. -/
def powerText (base : String) (e : ℚ) : String := base ++ "^(" ++ Ratio.text e ++ ")"

theorem toList_powerText (base : String) (e : ℚ) : (powerText base e).toList =
    base.toList ++ '^' :: '(' :: ((Ratio.text e).toList ++ [')']) := by
  simp [powerText]

theorem powerText_injective {base base' : String} {e e' : ℚ} (hb : IsNumeral base)
    (hb' : IsNumeral base') (h : powerText base e = powerText base' e') :
    base = base' ∧ e = e' := by
  have hlist := congrArg String.toList h
  rw [toList_powerText, toList_powerText] at hlist
  obtain ⟨hbase, hrest⟩ := append_inj_of_separated (c := '^') (hb.notMem rfl (by decide))
    (hb'.notMem rfl (by decide)) (by simp) (by simp) hlist
  have hexp := List.append_cancel_right (List.cons.inj (List.cons.inj hrest).2).2
  exact ⟨String.toList_inj.mp hbase, Ratio.text_injective (String.toList_inj.mp hexp)⟩

/-- The power of a unit, behind its name. -/
def unitPower (x : ℚ) : List Char := if x = 1 then [] else '^' :: (Ratio.text x).toList

theorem unitPower_injective {x y : ℚ} (h : unitPower x = unitPower y) : x = y := by
  unfold unitPower at h
  split at h
  · next hx =>
    split at h
    · next hy => rw [hx, hy]
    · cases h
  · split at h
    · cases h
    · exact Ratio.text_injective (String.toList_inj.mp (List.cons.inj h).2)

theorem toList_unitSuffix (time : ℚ) : (unitSuffix time).toList =
    if time = 0 then []
    else if time < 0 then ' ' :: 'H' :: 'z' :: unitPower (-time)
    else ' ' :: 's' :: unitPower time := by
  unfold unitSuffix unitPower
  split
  · rfl
  · split
    · simp only [neg_eq_iff_eq_neg]
      split <;> simp
    · split <;> simp

/-- The text of a unit tells its power. -/
theorem unitSuffix_injective {a b : ℚ} (h : unitSuffix a = unitSuffix b) : a = b := by
  have hlist := congrArg String.toList h
  rw [toList_unitSuffix, toList_unitSuffix] at hlist
  split at hlist
  · next ha =>
    split at hlist
    · next hb => rw [ha, hb]
    · split at hlist <;> cases hlist
  · split at hlist
    · split at hlist
      · cases hlist
      · split at hlist
        · simp only [List.cons.injEq, true_and] at hlist
          exact neg_inj.mp (unitPower_injective hlist)
        · simp at hlist
    · split at hlist
      · cases hlist
      · split at hlist
        · simp at hlist
        · simp only [List.cons.injEq, true_and] at hlist
          exact unitPower_injective hlist

theorem head_unitSuffix (time : ℚ) : ∀ c ∈ (unitSuffix time).toList.head?, c = ' ' := by
  rw [toList_unitSuffix]
  split
  · simp
  · split <;> simp

namespace Monzo
open Double Intonation.Prime

variable {s : Settings} {m n : Monzo} {es fs : List ℚ} {t : String}

/-! ## Products of powers of primes -/

/-- The primes of the table with their exponents other than zero. -/
def primePowers (es : List ℚ) : List (Nat × ℚ) := (table.zip es).filter fun (_, e) => e ≠ 0

theorem factorTexts_eq (es : List ℚ) :
    factorTexts es = (primePowers es).map fun c => powerText (toString c.1) c.2 := rfl

theorem mem_primePowers_iff {p k : Nat} (hp : table[k]? = some p) {e : ℚ} :
    (p, e) ∈ primePowers es ↔ e ≠ 0 ∧ es.getD k 0 = e := by
  rw [primePowers, List.mem_filter, decide_eq_true_eq, and_comm]
  refine and_congr_right fun he => ?_
  constructor
  · intro hmem
    obtain ⟨i, hi, heq⟩ := List.mem_iff_getElem.mp hmem
    rw [List.getElem_zip, Prod.mk.injEq] at heq
    have hi' := List.length_zip ▸ hi
    obtain rfl : i = k := by
      obtain ⟨hk, hpk⟩ := List.getElem?_eq_some_iff.mp hp
      exact table_nodup.getElem_inj_iff.mp (heq.1.trans hpk.symm)
    rw [List.getD_eq_getElem _ _ (by omega), heq.2]
  · rintro rfl
    obtain ⟨hk, hpk⟩ := List.getElem?_eq_some_iff.mp hp
    have hk' : k < es.length := by
      by_contra hge
      exact he (List.getD_eq_default _ _ (not_lt.mp hge))
    rw [List.getD_eq_getElem _ _ hk']
    refine List.mem_iff_getElem.mpr ⟨k, by rw [List.length_zip]; omega, ?_⟩
    rw [List.getElem_zip, hpk]

/-- The powers of primes tell the exponents. -/
theorem getD_eq_of_primePowers (h : primePowers es = primePowers fs) {k : Nat}
    (hk : k < tableSize) : es.getD k 0 = fs.getD k 0 := by
  obtain ⟨p, hp⟩ : ∃ p, table[k]? = some p := ⟨_, List.getElem?_eq_getElem (lt_length_table hk)⟩
  have key : ∀ {es fs : List ℚ}, primePowers es = primePowers fs → es.getD k 0 ≠ 0 →
      es.getD k 0 = fs.getD k 0 := by
    intro es fs h he
    have hmem := (mem_primePowers_iff hp).mpr ⟨he, rfl⟩
    rw [h] at hmem
    exact ((mem_primePowers_iff hp).mp hmem).2.symm
  by_cases he : es.getD k 0 = 0
  · by_cases hf : fs.getD k 0 = 0
    · rw [he, hf]
    · exact (key h.symm hf).symm
  · exact key h he

theorem text_intCast (n : Int) : Ratio.text n = toString n := by
  rw [Ratio.text, if_pos (Rat.den_intCast n), Rat.num_intCast]

theorem text_natCast (k : Nat) : Ratio.text k = toString k := by
  rw [Ratio.text, if_pos (Rat.den_natCast k), Rat.num_natCast]
  rfl

theorem primePowers_injective (h : factorTexts es = factorTexts fs) :
    primePowers es = primePowers fs := by
  rw [factorTexts_eq, factorTexts_eq] at h
  refine List.map_injective_iff.mpr ?_ h
  rintro ⟨p, e⟩ ⟨p', e'⟩ heq
  simp only at heq
  rw [← text_natCast, ← text_natCast] at heq
  obtain ⟨hbase, rfl⟩ := powerText_injective (isNumeral_text _) (isNumeral_text _) heq
  rw [Nat.cast_injective (Ratio.text_injective hbase)]

theorem exists_of_mem_factorTexts {t : String} (h : t ∈ factorTexts es) :
    ∃ p e, t = powerText (Ratio.text ((p : Nat) : ℚ)) e := by
  rw [factorTexts_eq] at h
  obtain ⟨⟨p, e⟩, -, rfl⟩ := List.mem_map.mp h
  exact ⟨p, e, by rw [text_natCast]⟩

/-- A separator is no part of a power. -/
theorem notMem_powerText {base : String} {e : ℚ} (hb : IsNumeral base) {c : Char}
    (hdigit : c.isDigit = false) (hmark : c ∉ ['-', '/', '.']) (hpower : c ∉ ['^', '(', ')']) :
    c ∉ (powerText base e).toList := by
  have hbase := hb.notMem hdigit hmark
  have hexp := (isNumeral_text e).notMem hdigit hmark
  simp only [List.mem_cons, List.not_mem_nil, or_false, not_or] at hpower
  simp [toList_powerText, hbase, hexp, hpower]

/-- A product shows what its powers show, apart from the mark between them. -/
theorem mem_product_iff {c : Char} (hc : c ≠ '*') :
    c ∈ ("*".intercalate (factorTexts es)).toList ↔ ∃ t ∈ factorTexts es, c ∈ t.toList := by
  rw [String.toList_intercalate, mem_intercalate_iff (by simpa using hc)]
  simp

/-- Products with one text have the same powers. -/
theorem factorTexts_injective (hes : factorTexts es ≠ []) (hfs : factorTexts fs ≠ [])
    (h : "*".intercalate (factorTexts es) = "*".intercalate (factorTexts fs)) :
    factorTexts es = factorTexts fs := by
  have hlist := congrArg String.toList h
  rw [String.toList_intercalate, String.toList_intercalate] at hlist
  have hrows : ∀ {es : List ℚ}, ∀ row ∈ (factorTexts es).map String.toList, '*' ∉ row := by
    intro es row hrow
    obtain ⟨t, ht, rfl⟩ := List.mem_map.mp hrow
    obtain ⟨p, e, rfl⟩ := exists_of_mem_factorTexts ht
    exact notMem_powerText (isNumeral_text _) rfl (by decide) (by decide)
  exact List.map_injective_iff.mpr (fun _ _ => String.toList_inj.mp)
    (intercalate_injective hrows hrows (mt List.map_eq_nil_iff.mp hes)
      (mt List.map_eq_nil_iff.mp hfs) hlist)

/-! ## The linear domain -/

/-- A value that is written exactly: without correction, a ratio or without residual, and without
exponents beyond the table. -/
structure IsExact (m : Monzo) : Prop where
  uncorrected : m.isUncorrected = true
  vanish : ∀ e ∈ m.exps.drop tableSize, e = 0
  exact : m.isFractional = true ∨ m.residual = 1

/-- A value that is no ratio has powers of primes. -/
theorem IsExact.factorTexts_ne_nil (hm : m.IsExact) (hfrac : m.isFractional = false) :
    factorTexts m.exps ≠ [] := by
  rw [isFractional, hm.uncorrected, Bool.true_and, List.all_eq_false] at hfrac
  obtain ⟨e, he, hden⟩ := hfrac
  have he0 : e ≠ 0 := by
    rintro rfl
    exact hden (by decide)
  obtain ⟨k, hk, rfl⟩ := List.mem_iff_getElem.mp he
  have hlt : k < tableSize := by
    by_contra hge
    exact he0 (hm.vanish _ (getElem_mem_drop (not_lt.mp hge) hk))
  obtain ⟨p, hp⟩ : ∃ p, table[k]? = some p := ⟨_, List.getElem?_eq_getElem (lt_length_table hlt)⟩
  have hmem := (mem_primePowers_iff hp).mpr ⟨he0, List.getD_eq_getElem _ _ hk⟩
  rw [factorTexts_eq]
  exact List.ne_nil_of_mem (List.mem_map_of_mem hmem)

/-- The text of a value in front of its unit: a number for a ratio, a power of the equave for a
scalar, and powers of primes for anything else. -/
inductive LinearBody (m : Monzo) (t : String) : Prop
  | ratio (hfrac : m.isFractional = true) (ht : IsNumeral t) (hread : Ratio.read t = .ok m.ratio)
  | power (hfrac : m.isFractional = false) (htime : m.time = 0)
    (ht : t = powerText (Ratio.text (temperament m.exps).2) (temperament m.exps).1)
  | product (hfrac : m.isFractional = false) (htime : m.time ≠ 0)
    (ht : t = "*".intercalate (factorTexts m.exps))

/-- The text of a value that is written exactly is its body and its unit. -/
theorem IsExact.linearText_eq (hm : m.IsExact) :
    ∃ t, LinearBody m t ∧ m.linearText = t ++ unitSuffix m.time := by
  unfold linearText
  cases hfrac : m.isFractional with
  | true =>
    simp only [if_true]
    split
    · next t hdecimal =>
      split at hdecimal
      · obtain ⟨d, hd, rfl⟩ := Option.map_eq_some_iff.mp hdecimal
        exact ⟨_, .ratio hfrac (isNumeral_decimal hd) (Ratio.spelling_of_decimal? hd).2, rfl⟩
      · cases hdecimal
    · exact ⟨_, .ratio hfrac (isNumeral_text _) (Ratio.read_text _), rfl⟩
  | false =>
    have hres : m.residual = 1 := hm.exact.resolve_left (by simp [hfrac])
    simp only [Bool.false_eq_true, if_false]
    by_cases htime : m.time = 0
    · have htemp : m.isEqualTemperament = true :=
        isEqualTemperament_iff.mpr ⟨htime, hm.uncorrected, hres⟩
      refine ⟨_, .power hfrac htime rfl, ?_⟩
      rw [if_pos htemp, htime]
      simp [powerText, unitSuffix]
    · have htemp : ¬ m.isEqualTemperament = true :=
        mt isEqualTemperament_iff.mp fun h => htime h.1
      refine ⟨_, .product hfrac htime rfl, ?_⟩
      rw [if_neg htemp, if_pos (by simp [hm.uncorrected, hres])]

namespace LinearBody

/-- No body holds the blank in front of a unit. -/
theorem blank_notMem (h : LinearBody m t) : ' ' ∉ t.toList := by
  cases h with
  | ratio _ ht => exact ht.notMem rfl (by decide)
  | power _ _ ht =>
    rw [ht]
    exact notMem_powerText (isNumeral_text _) rfl (by decide) (by decide)
  | product _ _ ht =>
    rw [ht, mem_product_iff (by decide)]
    rintro ⟨t, ht, hmem⟩
    obtain ⟨p, e, rfl⟩ := exists_of_mem_factorTexts ht
    exact notMem_powerText (isNumeral_text _) rfl (by decide) (by decide) hmem

/-- Exponents stand between parentheses, and no ratio has them. -/
theorem paren_mem_iff (h : LinearBody m t) (hm : m.IsExact) :
    '(' ∈ t.toList ↔ ¬ m.isFractional = true := by
  cases h with
  | ratio hfrac ht => exact iff_of_false (ht.notMem rfl (by decide)) (not_not.mpr hfrac)
  | power hfrac _ ht =>
    rw [ht]
    exact iff_of_true (by simp [toList_powerText]) (by simp [hfrac])
  | product hfrac _ ht =>
    obtain ⟨t, hmem⟩ := List.exists_mem_of_ne_nil _ (hm.factorTexts_ne_nil hfrac)
    obtain ⟨p, e, rfl⟩ := exists_of_mem_factorTexts hmem
    rw [ht, mem_product_iff (by decide)]
    exact iff_of_true ⟨_, hmem, by simp [toList_powerText]⟩ (by simp [hfrac])

/-- Values with one body and the same time units denote one number. -/
theorem number_eq (hbm : LinearBody m t) (hbn : LinearBody n t) (hm : m.IsExact) (hn : n.IsExact)
    (htime : m.time = n.time) : m.number = n.number := by
  -- a parenthesis tells products and powers from ratios, and the time units tell them apart
  have hkind := (hbm.paren_mem_iff hm).symm.trans (hbn.paren_mem_iff hn)
  rw [not_iff_not] at hkind
  have hres : m.isFractional = false → m.residual = n.residual := by
    intro hfrac
    have hfrac' : ¬ n.isFractional = true := fun h => by simp [hkind.mpr h] at hfrac
    rw [hm.exact.resolve_left (by simp [hfrac]), hn.exact.resolve_left hfrac']
  cases hbm with
  | ratio hfrac _ hread =>
    cases hbn with
    | ratio hfrac' _ hread' =>
      rw [hread] at hread'
      rw [number_eq_ratio hfrac, number_eq_ratio hfrac', Except.ok.inj hread']
    | power hfrac' | product hfrac' => simp [hkind.mp hfrac] at hfrac'
  | power hfrac htime' ht =>
    cases hbn with
    | ratio hfrac' => simp [hkind.mpr hfrac'] at hfrac
    | product _ hne => exact absurd (htime.symm.trans htime') hne
    | power _ _ ht' =>
      obtain ⟨hequave, hpart⟩ := powerText_injective (isNumeral_text _) (isNumeral_text _)
        (ht.symm.trans ht')
      refine number_congr (fun k hk => ?_) (hres hfrac)
      rw [getD_temperament _ hk, getD_temperament _ hk, Ratio.text_injective hequave, hpart]
  | product hfrac hne ht =>
    cases hbn with
    | ratio hfrac' => simp [hkind.mpr hfrac'] at hfrac
    | power _ htime' => exact absurd (htime.trans htime') hne
    | product hfrac' _ ht' =>
      have hterms := factorTexts_injective (hm.factorTexts_ne_nil hfrac)
        (hn.factorTexts_ne_nil hfrac') (ht.symm.trans ht')
      exact number_congr (fun k => getD_eq_of_primePowers (primePowers_injective hterms))
        (hres hfrac)

end LinearBody

/-- The linear text of a value tells its time units and its number. -/
theorem IsExact.of_linearText_eq (hm : m.IsExact) (hn : n.IsExact)
    (h : m.linearText = n.linearText) : m.time = n.time ∧ m.number = n.number := by
  obtain ⟨t, hbm, ht⟩ := hm.linearText_eq
  obtain ⟨t', hbn, ht'⟩ := hn.linearText_eq
  have hlist := congrArg String.toList h
  rw [ht, ht', String.toList_append, String.toList_append] at hlist
  obtain ⟨hbody, hunit⟩ := append_inj_of_separated hbm.blank_notMem hbn.blank_notMem
    (head_unitSuffix _) (head_unitSuffix _) hlist
  have htime := unitSuffix_injective (String.toList_inj.mp hunit)
  obtain rfl := String.toList_inj.mp hbody
  exact ⟨htime, hbm.number_eq hbn hm hn htime⟩

/-! ## The logarithmic domain -/

/-- The mark of an equave behind steps, which the octave has not. -/
def equaveMark (e : ℚ) : List Char := if e = 2 then [] else '<' :: ((Ratio.text e).toList ++ ['>'])

theorem toList_stepsText (f e : ℚ) : (stepsText f e).toList =
    ((toString f.num).toList ++ backslash :: (toString f.den).toList) ++ equaveMark e := by
  unfold stepsText equaveMark
  simp only
  split
  · simp [backslash]
  · simp [backslash]

/-- Steps of the octave are two numerals around a backslash. -/
theorem notMem_steps (q : ℚ) {c : Char} (hdigit : c.isDigit = false) (hmark : c ∉ ['-', '/', '.'])
    (hc : c ≠ backslash) :
    c ∉ (toString q.num).toList ++ backslash :: (toString q.den).toList := by
  rw [List.mem_append, List.mem_cons, ← text_intCast, ← text_natCast, not_or, not_or]
  exact ⟨(isNumeral_text _).notMem hdigit hmark, hc, (isNumeral_text _).notMem hdigit hmark⟩

theorem equaveMark_injective {e e' : ℚ} (h : equaveMark e = equaveMark e') : e = e' := by
  unfold equaveMark at h
  split at h
  · next he =>
    split at h
    · next he' => rw [he, he']
    · cases h
  · split at h
    · cases h
    · exact Ratio.text_injective
        (String.toList_inj.mp (List.append_cancel_right (List.cons.inj h).2))

/-- Steps tell their fraction and their equave. -/
theorem stepsText_injective {f f' e e' : ℚ} (h : stepsText f e = stepsText f' e') :
    f = f' ∧ e = e' := by
  have hequave : ∀ e : ℚ, ∀ c ∈ (equaveMark e).head?, c = '<' := by
    intro e
    unfold equaveMark
    split <;> simp
  have hlist := congrArg String.toList h
  rw [toList_stepsText, toList_stepsText] at hlist
  obtain ⟨hsteps, hmark⟩ := append_inj_of_separated (notMem_steps f rfl (by decide) (by decide))
    (notMem_steps f' rfl (by decide) (by decide)) (hequave e) (hequave e') hlist
  obtain ⟨hnum, hrest⟩ := append_inj_of_separated (c := backslash)
    ((isNumeral_int _).notMem (by decide) (by decide))
    ((isNumeral_int _).notMem (by decide) (by decide)) (by simp) (by simp) hsteps
  have hnum' : Ratio.text f.num = Ratio.text f'.num := by
    rw [text_intCast, text_intCast, String.toList_inj.mp hnum]
  have hden : Ratio.text f.den = Ratio.text f'.den := by
    rw [text_natCast, text_natCast, String.toList_inj.mp (List.cons.inj hrest).2]
  exact ⟨Rat.ext (Int.cast_injective (Ratio.text_injective hnum'))
    (Nat.cast_injective (Ratio.text_injective hden)), equaveMark_injective hmark⟩

theorem getD_trimZeros (es : List ℚ) (k : Nat) : (trimZeros es).getD k 0 = es.getD k 0 := by
  conv_rhs => rw [← padded_trimZeros es, getD_padded]

theorem trimZeros_ne_nil (h : isFlat es = false) : trimZeros es ≠ [] := by
  intro hnil
  have hzeros := padded_trimZeros es
  rw [hnil, padded_nil] at hzeros
  rw [isFlat_iff.mpr hzeros.symm] at h
  cases h

theorem toList_vectorText (es : List ℚ) : (vectorText es).toList = '[' ::
    ([' '].intercalate (((trimZeros es).map Ratio.text).map String.toList) ++ ['>']) := by
  simp [vectorText, componentsText]

/-- A vector tells its components up to the zeros at its end. -/
theorem vectorText_injective (hes : isFlat es = false) (hfs : isFlat fs = false)
    (h : vectorText es = vectorText fs) : trimZeros es = trimZeros fs := by
  have hlist := congrArg String.toList h
  rw [toList_vectorText, toList_vectorText] at hlist
  have hrows : ∀ {es : List ℚ}, ∀ row ∈ (es.map Ratio.text).map String.toList, ' ' ∉ row := by
    intro es row hrow
    simp only [List.map_map, List.mem_map] at hrow
    obtain ⟨e, -, rfl⟩ := hrow
    exact (isNumeral_text e).notMem rfl (by decide)
  have hne : ∀ {es : List ℚ}, isFlat es = false →
      ((trimZeros es).map Ratio.text).map String.toList ≠ [] := by
    intro es hes
    simpa using trimZeros_ne_nil hes
  have hmaps := intercalate_injective hrows hrows (hne hes) (hne hfs)
    (List.append_cancel_right (List.cons.inj hlist).2)
  exact List.map_injective_iff.mpr (fun _ _ => Ratio.text_injective)
    (List.map_injective_iff.mpr (fun _ _ => String.toList_inj.mp) hmaps)

/-- The text of a rational power of a ratio: steps of an equave, or a vector. -/
inductive SizeText (m : Monzo) (t : String) : Prop
  | steps {f e : ℚ} (hexps : ∀ k < tableSize, m.exps.getD k 0 = f * padicValRat (atPosition k) e)
    (ht : t = stepsText f e)
  | vector (hflat : isFlat m.exps = false) (ht : t = vectorText m.exps)

theorem sizeText_of_isEqualTemperament (h : m.isEqualTemperament) :
    SizeText m m.logarithmicText := by
  have hres := (isEqualTemperament_iff.mp h).2.2
  rw [logarithmicText, if_neg (by rw [hres]; exact one_ne_zero),
    if_neg (by rw [hres]; exact not_lt.mpr zero_le_one), if_pos h, temperamentText]
  split
  · next hflat =>
    -- no steps of the octave, as of any other equave
    refine .steps (f := 0) (e := 2) (fun k hk => ?_) (by decide +kernel)
    rw [getD_temperament _ hk, temperament_of_flat hflat, zero_mul, zero_mul]
  · next hflat =>
    simp only
    split
    · exact .steps (fun k hk => getD_temperament _ hk) rfl
    · exact .vector (Bool.not_eq_true _ ▸ hflat) rfl

/-- Only vectors start with a bracket. -/
theorem bracket_notMem_stepsText (f e : ℚ) : '[' ∉ (stepsText f e).toList := by
  have hequave := (isNumeral_text e).notMem (c := '[') rfl (by decide)
  rw [toList_stepsText, List.mem_append, not_or]
  refine ⟨notMem_steps f rfl (by decide) (by decide), ?_⟩
  unfold equaveMark
  split <;> simp [hequave]

/-- Values with one text as an interval have the same exponents. -/
theorem SizeText.getD_eq (hm : SizeText m t) (hn : SizeText n t) {k : Nat} (hk : k < tableSize) :
    m.exps.getD k 0 = n.exps.getD k 0 := by
  have hdisjoint : ∀ {f e : ℚ} {es : List ℚ}, stepsText f e = vectorText es → False := by
    intro f e es h
    refine bracket_notMem_stepsText f e ?_
    rw [h, toList_vectorText]
    exact List.mem_cons_self
  cases hm with
  | steps hexps ht =>
    cases hn with
    | steps hexps' ht' =>
      obtain ⟨rfl, rfl⟩ := stepsText_injective (ht.symm.trans ht')
      rw [hexps k hk, hexps' k hk]
    | vector _ ht' => exact (hdisjoint (ht.symm.trans ht')).elim
  | vector hflat ht =>
    cases hn with
    | steps _ ht' => exact (hdisjoint (ht'.symm.trans ht)).elim
    | vector hflat' ht' =>
      rw [← getD_trimZeros, vectorText_injective hflat hflat' (ht.symm.trans ht'), getD_trimZeros]

/-! ## Vectors alike -/

section
variable (hm : m.isEqualTemperament = true) (hn : n.isEqualTemperament = true)
  (h : ∀ k, m.exps.getD k 0 = n.exps.getD k 0)

theorem padded_congr (h : ∀ k, es.getD k 0 = fs.getD k 0) {count : Nat} (hes : es.length ≤ count)
    (hfs : fs.length ≤ count) : padded count es = padded count fs := by
  have hlen : ∀ {es : List ℚ}, es.length ≤ count → (padded count es).length = count := by
    intro es hes
    rw [length_padded, max_eq_left hes]
  refine List.ext_getElem ((hlen hes).trans (hlen hfs).symm) fun k hk hk' => ?_
  have hentry := h k
  rwa [← getD_padded count es, ← getD_padded count fs, List.getD_eq_getElem _ _ hk,
    List.getD_eq_getElem _ _ hk'] at hentry

theorem exponentFault?_padded {bound : ℚ} {primes : List (Nat × Float)} (count : Nat) :
    exponentFault? bound primes (padded count es) = none ↔ exponentFault? bound primes es = none :=
  ⟨exponentFault?_of_append primes, fun h =>
    exponentFault?_append_zeros primes h fun _ he => List.eq_of_mem_replicate he⟩

include hm hn h

/-- Vectors that differ by zeros at their ends are within the bounds together. -/
theorem bounded_iff_of_getD : boundsFault? s m = none ↔ boundsFault? s n = none := by
  obtain ⟨-, hcm, hrm⟩ := isEqualTemperament_iff.mp hm
  obtain ⟨-, hcn, hrn⟩ := isEqualTemperament_iff.mp hn
  have hpadded := padded_congr h (le_max_left m.exps.length n.exps.length) (le_max_right _ _)
  have hexps : exponentFault? (centsBound s) measures m.exps = none ↔
      exponentFault? (centsBound s) measures n.exps = none := by
    rw [← exponentFault?_padded (max m.exps.length n.exps.length), hpadded, exponentFault?_padded]
  have hcents : Alike m.cents n.cents := .of_beq_zero hcm hcn
  rw [boundsFault?_eq_none_iff, boundsFault?_eq_none_iff, hexps, hrm, hrn]
  exact and_congr_right fun _ => ⟨.congr hcents, .congr hcents.symm⟩

/-- Vectors that differ by zeros at their ends are strictly equal over one basis, and over the
larger of two when the table reaches it and they are within the bounds in force. -/
theorem strictEquals_of_getD (hreach : m.components = n.components ∨
    max m.components n.components ≤ tableSize ∧ boundsFault? s m = none) :
    m.strictEquals s n = .ok true := by
  obtain ⟨htm, hcm, hrm⟩ := isEqualTemperament_iff.mp hm
  obtain ⟨htn, hcn, hrn⟩ := isEqualTemperament_iff.mp hn
  rcases hreach with hlen | ⟨hmax, hbounded⟩
  · have hexps := padded_congr h (show m.exps.length ≤ n.exps.length from hlen.le) le_rfl
    rw [padded_of_le (show n.exps.length ≤ m.exps.length from hlen.ge), padded_of_le le_rfl] at hexps
    exact strictEquals_of_parts (by rw [parts, parts, hexps, hrm, hrn]) (htm.trans htn.symm) hcm hcn
  · refine strictEquals_of_spread (by omega) (by omega) hbounded
      ((bounded_iff_of_getD hm hn h).mp hbounded) (htm.trans htn.symm) hcm hcn ?_
    rw [parts, parts, hrm, hrn, spread_one hmax, spread_one hmax, components, components,
      padded_congr h (le_max_left _ _) (le_max_right _ _)]

omit hn h in
/-- A vector that is taken over more primes is within the bounds. -/
theorem bounded_of_grow {count : Nat} {w : Monzo} (hw : m.grow s count = .ok w) :
    boundsFault? s m = none := by
  obtain ⟨htm, hcm, hrm⟩ := isEqualTemperament_iff.mp hm
  obtain ⟨parts, hparts, hw⟩ := bind_eq_ok.mp hw
  rw [hrm] at hparts
  obtain rfl := IsVector.factor_one hparts
  obtain ⟨hbounded, rfl⟩ := checked_eq_ok_iff.mp hw
  refine (bounded_iff_of_getD (n := { m with exps := addExponents m.exps _, residual := 1 }) hm
    (isEqualTemperament_iff.mpr ⟨htm, hcm, rfl⟩) fun k => ?_).mpr hbounded
  show _ = (addExponents m.exps _).getD k 0
  rw [IsVector.addExponents_replicate_zero, getD_padded]

/-- A comparison of such vectors that returns had a common basis. -/
theorem reach_of_strictEquals {r : Bool} (hr : m.strictEquals s n = .ok r) :
    m.components = n.components ∨
      max m.components n.components ≤ tableSize ∧ boundsFault? s m = none := by
  by_cases hlen : m.components = n.components
  · exact .inl hlen
  · refine .inr ⟨(alignable_of_strictEquals hr).resolve_left hlen, ?_⟩
    obtain ⟨c, halign, -⟩ := bind_eq_ok.mp hr
    obtain ⟨wm, hwm, halign⟩ := bind_eq_ok.mp halign
    obtain ⟨wn, hwn, -⟩ := bind_eq_ok.mp halign
    rcases lt_or_gt_of_ne hlen with hlt | hgt
    · rw [widen, if_pos hlt] at hwm
      exact bounded_of_grow hm hwm
    · rw [widen, if_pos hgt] at hwn
      exact (bounded_iff_of_getD hm hn h).mpr (bounded_of_grow hn hwn)

end

theorem getD_of_vanish (h : ∀ e ∈ es.drop tableSize, e = 0) {k : Nat} (hk : tableSize ≤ k) :
    es.getD k 0 = 0 := by
  by_cases hlt : k < es.length
  · rw [List.getD_eq_getElem _ _ hlt]
    exact h _ (getElem_mem_drop hk hlt)
  · exact List.getD_eq_default _ _ (not_lt.mp hlt)

/-- Values without correction that are ratios or have no residual, and are written alike in the
linear domain, have the same time units and denote the same number. Rational powers of ratios that
are written alike as intervals are never found different: they are strictly equal over one basis,
and over the larger of two exactly when the table reaches it and they are within the bounds in
force. -/
theorem text_exact (m n : Monzo) (hm : m.IsBounded) (hn : n.IsBounded) :
    (m.isUncorrected → n.isUncorrected → (m.isFractional ∨ m.residual = 1) →
      (n.isFractional ∨ n.residual = 1) → m.text .linear = n.text .linear →
        m.time = n.time ∧ m.number = n.number) ∧
    (m.isEqualTemperament → n.isEqualTemperament → m.text .logarithmic = n.text .logarithmic →
      ∀ s, (∀ r, m.strictEquals s n = .ok r → r = true) ∧
        (m.strictEquals s n = .ok true ↔ m.components = n.components ∨
          max m.components n.components ≤ tableSize ∧ boundsFault? s m = none)) := by
  obtain ⟨sm, hm⟩ := hm
  obtain ⟨sn, hn⟩ := hn
  have hvm := vanish_of_bounded hm
  have hvn := vanish_of_bounded hn
  refine ⟨fun hum hun hem hen h => ?_, fun hm hn h s => ?_⟩
  · exact IsExact.of_linearText_eq ⟨hum, hvm, hem⟩ ⟨hun, hvn, hen⟩ h
  · have hsize := sizeText_of_isEqualTemperament hm
    rw [show m.logarithmicText = n.logarithmicText from h] at hsize
    have hexps : ∀ k, m.exps.getD k 0 = n.exps.getD k 0 := by
      intro k
      rcases lt_or_ge k tableSize with hlt | hge
      · exact hsize.getD_eq (sizeText_of_isEqualTemperament hn) hlt
      · rw [getD_of_vanish hvm hge, getD_of_vanish hvn hge]
    have hequal : ∀ r, m.strictEquals s n = .ok r → m.strictEquals s n = .ok true :=
      fun r hr => strictEquals_of_getD hm hn hexps (reach_of_strictEquals hm hn hexps hr)
    exact ⟨fun r hr => Except.ok.inj (hr.symm.trans (hequal r hr)),
      reach_of_strictEquals hm hn hexps, strictEquals_of_getD hm hn hexps⟩

/-- Half an octave over one prime and over two. -/
theorem text_exact_halfOctave :
    let m : Monzo := { exps := [1 / 2] }
    let n : Monzo := { exps := [1 / 2, 0] }
    m.IsBounded ∧ n.IsBounded ∧ m.isUncorrected ∧ n.isUncorrected ∧ m.residual = 1 ∧
      n.residual = 1 ∧ m.isEqualTemperament ∧ n.isEqualTemperament ∧
      m.text .linear = "2^(1/2)" ∧ n.text .linear = "2^(1/2)" ∧
      m.text .logarithmic = n.text .logarithmic ∧ m.number = n.number ∧
      m.strictEquals {} n = .ok true := by
  intro m n
  have hm : m.IsBounded := ⟨{}, by decide +kernel⟩
  have hn : n.IsBounded := ⟨{}, by decide +kernel⟩
  have hum : m.isUncorrected := by decide +kernel
  have hun : n.isUncorrected := by decide +kernel
  have htm : m.isEqualTemperament := by decide +kernel
  have htn : n.isEqualTemperament := by decide +kernel
  have hlinear : m.text .linear = "2^(1/2)" := by decide +kernel
  have hlinear' : n.text .linear = "2^(1/2)" := by decide +kernel
  have hsteps : m.text .logarithmic = n.text .logarithmic := by decide +kernel
  obtain ⟨hnumber, hstrict⟩ := text_exact m n hm hn
  exact ⟨hm, hn, hum, hun, rfl, rfl, htm, htn, hlinear, hlinear', hsteps,
    (hnumber hum hun (.inr rfl) (.inr rfl) (hlinear.trans hlinear'.symm)).2,
    (hstrict htm htn hsteps {}).2.mpr (.inr ⟨by decide, by decide +kernel⟩)⟩

/-- One over more components than the table has primes is written as one over nine, and is not
compared with it; nor are ten octaves over two bases, under a tighter bound. -/
theorem text_of_incomparable :
    (let wide : Monzo := { exps := List.replicate 1001 0 }
      let narrow : Monzo := { exps := List.replicate 9 0 }
      wide.IsBounded ∧ narrow.IsBounded ∧ wide.isEqualTemperament ∧ narrow.isEqualTemperament ∧
        wide.text .logarithmic = narrow.text .logarithmic ∧
        wide.strictEquals {} narrow = .error .tableExhausted) ∧
      (let m : Monzo := { exps := [10] }
        let n : Monzo := { exps := [10, 0] }
        m.IsBounded ∧ n.IsBounded ∧ m.isEqualTemperament ∧ n.isEqualTemperament ∧
          m.text .logarithmic = n.text .logarithmic ∧
          m.strictEquals { absurdExponent := 5 } n = .error (.exponentBound 2 10)) := by
  have hone : ∀ count, IsVector {} { exps := List.replicate count 0 } (List.replicate count 0) :=
    fun count => (unity_spec (unity_eq (s := {}) (by decide) count)).2.2.2.2
  refine ⟨⟨⟨{}, (hone 1001).bounded⟩, ⟨{}, (hone 9).bounded⟩, (hone 1001).isEqualTemperament,
    (hone 9).isEqualTemperament, by decide +kernel, ?_⟩, ⟨{}, by decide +kernel⟩,
    ⟨{}, by decide +kernel⟩, by decide +kernel, by decide +kernel, by decide +kernel, ?_⟩
  · rw [strictEquals_ones (hone 1001) (hone 9)]
    decide
  · decide +kernel

end Monzo

end Intonation
