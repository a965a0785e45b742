import Intonation.Ratio.Text
import Intonation.Proofs.Ratio.Decimal

/-!
# Numbers read back

Reading takes a row of digits up to the first character that cannot continue it. A ratio that is
written in lowest terms, or as the decimal of a terminating ratio, is therefore read back exactly,
and two ratios never share a text.

## Main definitions

* `withSign`: a number with a minus sign in front if it has one

## Main statements

* `takeDigits_append`: a row of digits is taken whole
* `read_text`: the text of a ratio denotes the ratio
* `read_decimal`: the text of a decimal denotes what its digits denote
* `head_toDigits_ne_zero`: a number is written without superfluous zeros
-/

namespace Intonation

namespace Text

theorem isDigit_of_latin {c : Char} (h : c.isDigit) : isDigit c = true := by
  rw [isDigit, digitValue?_of_isDigit h]
  rfl

/-- No blank is a digit. -/
theorem isBlank_of_latin {c : Char} (h : c.isDigit) : isBlank c = false := by
  simp only [Char.isDigit, Bool.and_eq_true, decide_eq_true_eq] at h
  have hlo : 0x30 ≤ c.toNat := h.1
  have hhi : c.toNat ≤ 0x39 := h.2
  simp only [isBlank, blankRanges, List.any_cons, List.any_nil, Bool.or_false, Bool.or_eq_false_iff,
    Bool.and_eq_false_iff, decide_eq_false_iff_not]
  omega

/-- A text without blanks stays as it is. -/
theorem trim_of_not_blank {cs : List Char} (h : ∀ c ∈ cs, isBlank c = false) : trim cs = cs := by
  have hdrop : ∀ {l : List Char}, (∀ c ∈ l, isBlank c = false) → l.dropWhile isBlank = l := by
    intro l hl
    cases l with
    | nil => rfl
    | cons c l => exact List.dropWhile_cons_of_neg (by simp [hl c List.mem_cons_self])
  rw [trim, trimBy, hdrop h, hdrop fun c hc => h c (List.mem_reverse.mp hc), List.reverse_reverse]

end Text

namespace Ratio

/-! ## Rows of digits -/

/-- A row of digits is taken whole when nothing that follows continues it. -/
theorem takeDigits_append {digits rest : List Char} (h : ∀ c ∈ digits, c.isDigit)
    (hrest : ∀ c ∈ rest.head?, Text.isDigit c = false ∧ c ≠ '_') :
    takeDigits (digits ++ rest) = (digits, rest) := by
  induction digits with
  | nil =>
    rcases rest with - | ⟨c, - | ⟨u, cs⟩⟩
    · rfl
    · simp [takeDigits, (hrest c rfl).1]
    · simp [takeDigits, (hrest c rfl).1]
  | cons c digits ih =>
    have hc := Text.isDigit_of_latin (h c List.mem_cons_self)
    have ih := ih fun c' hc' => h c' (List.mem_cons_of_mem _ hc')
    rcases hnext : digits ++ rest with - | ⟨u, cs⟩
    · obtain ⟨rfl, rfl⟩ := List.append_eq_nil_iff.mp hnext
      simp [takeDigits, hc]
    -- the next character is a digit or ends the row, so it is no underscore
    · have hu : u ≠ '_' := by
        rcases digits with - | ⟨d, digits⟩
        · exact (hrest u (by simp_all)).2
        · obtain rfl : d = u := by simpa using congrArg List.head? hnext
          rintro rfl
          exact absurd (h '_' (by simp)) (by decide)
      rw [hnext] at ih
      rw [List.cons_append, hnext, takeDigits]
      simp [hc, hu, ih]

theorem takeDigits_of_isDigit {digits : List Char} (h : ∀ c ∈ digits, c.isDigit) :
    takeDigits digits = (digits, []) := by
  have hall : takeDigits (digits ++ []) = (digits, []) := takeDigits_append h (by simp)
  rwa [List.append_nil] at hall

theorem digitsValue_of_isDigit {digits : List Char} (h : ∀ c ∈ digits, c.isDigit) :
    digitsValue digits = Nat.ofDigitChars 10 digits 0 := by
  rw [digitsValue, Text.natOfDigits?, Text.appendDigits?_of_isDigit h, Option.getD_some, mul_zero,
    zero_add]

/-! ## Written numbers -/

section
variable {whole below fraction : List Char}

theorem read?_whole (h : ∀ c ∈ whole, c.isDigit) (hne : whole ≠ []) :
    Written.read? whole = some (.decimal (Nat.ofDigitChars 10 whole 0) 0) := by
  obtain ⟨c, cs, rfl⟩ := List.exists_cons_of_ne_nil hne
  rw [Written.read?, takeDigits_of_isDigit h]
  simp [readExponent, digitsValue_of_isDigit h]

theorem read?_quotient (h : ∀ c ∈ whole, c.isDigit) (hne : whole ≠ [])
    (hbelow : ∀ c ∈ below, c.isDigit) (hne' : below ≠ []) :
    Written.read? (whole ++ '/' :: below) =
      some (.quotient (Nat.ofDigitChars 10 whole 0) (Nat.ofDigitChars 10 below 0)) := by
  obtain ⟨c, cs, rfl⟩ := List.exists_cons_of_ne_nil hne
  obtain ⟨d, ds, rfl⟩ := List.exists_cons_of_ne_nil hne'
  rw [Written.read?, takeDigits_append h (by simp; decide)]
  simp [takeDigits_of_isDigit hbelow, digitsValue_of_isDigit h, digitsValue_of_isDigit hbelow]

theorem read?_decimal (h : ∀ c ∈ whole, c.isDigit) (hne : whole ≠ [])
    (hfraction : ∀ c ∈ fraction, c.isDigit) :
    Written.read? (whole ++ '.' :: fraction) =
      some (.decimal (Nat.ofDigitChars 10 (whole ++ fraction) 0) (-fraction.length)) := by
  obtain ⟨c, cs, rfl⟩ := List.exists_cons_of_ne_nil hne
  have hall : ∀ c' ∈ c :: cs ++ fraction, c'.isDigit := by
    intro c' hc'
    rcases List.mem_append.mp hc' with hc' | hc'
    exacts [h c' hc', hfraction c' hc']
  have hvalue := digitsValue_of_isDigit hall
  rw [Written.read?, takeDigits_append h (by simp; decide)]
  rw [List.cons_append] at hvalue
  simp [takeDigits_of_isDigit hfraction, readExponent, hvalue]

end

/-! ## Signs -/

/-- A number with a minus sign in front if it has one. -/
def withSign (negative : Bool) (body : List Char) : List Char :=
  if negative then '-' :: body else body

theorem takeSign_withSign {negative : Bool} {body : List Char}
    (h : ∀ c ∈ body.head?, c.isDigit) : takeSign (withSign negative body) = (negative, body) := by
  cases negative with
  | true => rfl
  | false =>
    cases body with
    | nil => rfl
    | cons c cs =>
      have hc : c.isDigit := h c rfl
      have hminus : c ≠ '-' := by rintro rfl; exact absurd hc (by decide)
      have hplus : c ≠ '+' := by rintro rfl; exact absurd hc (by decide)
      simp [withSign, takeSign, hminus, hplus]

theorem toList_intRepr (n : Int) :
    (toString n).toList = withSign (decide (n < 0)) (Nat.toDigits 10 n.natAbs) := by
  cases n with
  | ofNat n =>
    have hsign : ¬ (Int.ofNat n < 0) := by simp
    rw [decide_eq_false hsign]
    show (Nat.repr n).toList = Nat.toDigits 10 n
    simp [Nat.repr_eq_ofList_toDigits]
  | negSucc n =>
    rw [decide_eq_true (Int.negSucc_lt_zero n)]
    show ("-" ++ Nat.repr (n + 1)).toList = '-' :: Nat.toDigits 10 (n + 1)
    simp [String.toList_append, Nat.repr_eq_ofList_toDigits]

/-- A text of a sign and a number is read as the number with its sign. -/
theorem read_of_toList {s : String} {negative : Bool} {body : List Char} {w : Written}
    (hs : s.toList = withSign negative body) (hhead : ∀ c ∈ body.head?, c.isDigit)
    (hblank : ∀ c ∈ body, Text.isBlank c = false) (hw : Written.read? body = some w) :
    read s = w.toRat.map fun q => if negative then -q else q := by
  have hall : ∀ c ∈ s.toList, Text.isBlank c = false := by
    rw [hs]
    cases negative with
    | true => exact List.forall_mem_cons.mpr ⟨by decide, hblank⟩
    | false => exact hblank
  rw [read, Text.trim_of_not_blank hall, hs, takeSign_withSign hhead]
  simp only [hw]

/-! ## Ratios in lowest terms -/

theorem isDigit_toDigits {n : Nat} : ∀ c ∈ Nat.toDigits 10 n, c.isDigit := fun _ =>
  Nat.isDigit_of_mem_toDigits (by norm_num) le_rfl

theorem isDigit_head_toDigits {n : Nat} (rest : List Char) :
    ∀ c ∈ (Nat.toDigits 10 n ++ rest).head?, c.isDigit := by
  obtain ⟨d, ds, hd⟩ := List.exists_cons_of_ne_nil (Nat.toDigits_ne_nil (n := n) (b := 10))
  have := isDigit_toDigits (n := n) d (by simp [hd])
  simpa [hd] using this

/-- The absolute value with the sign of a ratio. -/
theorem ite_neg_natAbs (q : ℚ) :
    (if decide (q.num < 0) then -((q.num.natAbs : ℚ) / q.den) else (q.num.natAbs : ℚ) / q.den) =
      q := by
  have habs : (q.num.natAbs : ℚ) / q.den = |q| := by
    rw [Nat.cast_natAbs, Int.cast_abs, ← Nat.abs_cast q.den, ← abs_div, Rat.num_div_den]
  rw [habs, show decide (q.num < 0) = decide (q < 0) from by simp [Rat.num_neg], ite_neg_abs]

/-- The text of a ratio denotes the ratio. -/
theorem read_text (q : ℚ) : read (text q) = .ok q := by
  have hsign := toList_intRepr q.num
  by_cases hden : q.den = 1
  · have hs : (text q).toList = withSign (decide (q.num < 0)) (Nat.toDigits 10 q.num.natAbs) := by
      rw [text, if_pos hden, hsign]
    rw [read_of_toList hs (by simpa using isDigit_head_toDigits (n := q.num.natAbs) [])
      (fun c hc => Text.isBlank_of_latin (isDigit_toDigits c hc))
      (read?_whole isDigit_toDigits Nat.toDigits_ne_nil), Nat.ofDigitChars_ten_toDigits]
    have hq := ite_neg_natAbs q
    rw [hden, Nat.cast_one, div_one] at hq
    simp only [Written.toRat, zpow_zero, mul_one]
    exact congrArg Except.ok hq
  · have hs : (text q).toList = withSign (decide (q.num < 0))
        (Nat.toDigits 10 q.num.natAbs ++ '/' :: Nat.toDigits 10 q.den) := by
      rw [text, if_neg hden, String.toList_append, String.toList_append, hsign]
      have hbelow : (toString q.den).toList = Nat.toDigits 10 q.den := by
        show (Nat.repr q.den).toList = _
        simp [Nat.repr_eq_ofList_toDigits]
      rw [hbelow]
      by_cases hneg : q.num < 0 <;> simp [withSign, hneg]
    have hblank : ∀ c ∈ Nat.toDigits 10 q.num.natAbs ++ '/' :: Nat.toDigits 10 q.den,
        Text.isBlank c = false := by
      intro c hc
      rw [List.mem_append, List.mem_cons] at hc
      rcases hc with hc | rfl | hc
      · exact Text.isBlank_of_latin (isDigit_toDigits c hc)
      · decide
      · exact Text.isBlank_of_latin (isDigit_toDigits c hc)
    rw [read_of_toList hs (isDigit_head_toDigits _) hblank
      (read?_quotient isDigit_toDigits Nat.toDigits_ne_nil isDigit_toDigits Nat.toDigits_ne_nil),
      Nat.ofDigitChars_ten_toDigits, Nat.ofDigitChars_ten_toDigits, Written.toRat,
      if_neg q.den_ne_zero, Rat.mkRat_eq_div]
    exact congrArg Except.ok (by simpa using ite_neg_natAbs q)

/-- Ratios with one text are equal. -/
theorem text_injective {p q : ℚ} (h : text p = text q) : p = q := by
  have hq := read_text q
  rw [← h, read_text p] at hq
  exact Except.ok.inj hq

/-! ## Decimals -/

theorem toList_decimal (d : Decimal) : d.text.toList =
    withSign d.negative (Nat.toDigits 10 d.whole ++
      if d.fraction.toList = [] then [] else '.' :: d.fraction.toList) := by
  have hwhole : (toString d.whole).toList = Nat.toDigits 10 d.whole := by
    show (Nat.repr d.whole).toList = _
    simp [Nat.repr_eq_ofList_toDigits]
  have hempty : d.fraction.isEmpty = true ↔ d.fraction.toList = [] := by
    rw [String.isEmpty_iff, String.toList_eq_nil_iff]
  rw [Decimal.text, String.toList_append, String.toList_append, hwhole]
  by_cases h : d.fraction.toList = []
  · rw [if_pos h, if_pos (hempty.mpr h)]
    cases d.negative <;> rfl
  · rw [if_neg h, if_neg (mt hempty.mp h)]
    cases d.negative <;> simp [withSign]

/-- The text of a decimal denotes what its digits denote. -/
theorem read_decimal {d : Decimal} {q : ℚ} (hd : ∀ c ∈ d.fraction.toList, c.isDigit)
    (hq : (Digits.ofDecimal d).toRatio = .ok q) : read d.text = .ok q := by
  have hs := toList_decimal d
  have hpoint : ∀ c ∈ '.' :: d.fraction.toList, Text.isBlank c = false :=
    List.forall_mem_cons.mpr ⟨by decide, fun c hc => Text.isBlank_of_latin (hd c hc)⟩
  have hwhole : ∀ c ∈ Nat.toDigits 10 d.whole, Text.isBlank c = false := fun c hc =>
    Text.isBlank_of_latin (isDigit_toDigits c hc)
  have hread : Written.read? (Nat.toDigits 10 d.whole ++
      if d.fraction.toList = [] then [] else '.' :: d.fraction.toList) =
      some (.decimal (10 ^ d.fraction.toList.length * d.whole +
        Nat.ofDigitChars 10 d.fraction.toList 0) (-d.fraction.toList.length)) := by
    by_cases h : d.fraction.toList = []
    · rw [if_pos h, List.append_nil, read?_whole isDigit_toDigits Nat.toDigits_ne_nil, h]
      simp [Nat.ofDigitChars_ten_toDigits]
    · rw [if_neg h, read?_decimal isDigit_toDigits Nat.toDigits_ne_nil hd, Nat.ofDigitChars_append,
        Nat.ofDigitChars_ten_toDigits, Nat.ofDigitChars_eq_ofDigitChars_zero]
  rw [read_of_toList hs (isDigit_head_toDigits _) _ hread]
  · rw [Digits.toRatio, show (Digits.ofDecimal d).fraction = d.fraction from rfl,
      Text.appendDigits?_of_isDigit hd] at hq
    rw [← Except.ok.inj hq]
    simp [Digits.ofDecimal, Written.toRat, Except.map]
  · intro c hc
    split at hc
    · exact hwhole c (by simpa using hc)
    · rcases List.mem_append.mp hc with hc | hc
      exacts [hwhole c hc, hpoint c hc]

/-! ## Leading zeros -/

/-- A number other than zero is written without a zero in front. -/
theorem head_toDigits_ne_zero {n : Nat} (hn : n ≠ 0) : (Nat.toDigits 10 n).head? ≠ some '0' := by
  induction n using Nat.strong_induction_on with
  | _ n ih =>
    by_cases hlt : n < 10
    · rw [Nat.toDigits_of_lt_base hlt]
      interval_cases n <;> simp_all
    · rw [Nat.toDigits_of_base_le (by norm_num) (not_lt.mp hlt),
        List.head?_append_of_ne_nil _ Nat.toDigits_ne_nil]
      exact ih (n / 10) (by omega) (by omega)

theorem eq_zero_of_head_toDigits {n : Nat} (h : (Nat.toDigits 10 n).head? = some '0') :
    Nat.toDigits 10 n = ['0'] := by
  obtain rfl : n = 0 := not_not.mp fun hn => head_toDigits_ne_zero hn h
  rfl

end Ratio

end Intonation
