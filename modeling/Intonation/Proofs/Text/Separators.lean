import Intonation.Proofs.Literal.Decimals

/-!
# Rows between separators

A text is told apart into the rows between its separators, as long as the rows hold no separator
themselves. The texts of numbers hold digits, signs, slashes and points only, so anything else
separates them.

## Main definitions

* `Text.IsNumeral`: a text of digits, signs, slashes and points

## Main statements

* `Text.append_inj_of_separated`: a row and what follows its separator
* `Text.intercalate_injective`: rows between separators
* `Text.isNumeral_text`, `Text.isNumeral_decimal`: the texts of numbers
-/

namespace Intonation.Text

section
variable {α : Type} {c : α} {xs ys xs' ys' : List α}

/-- A row and what follows it, which is nothing or starts with the separator. -/
theorem append_inj_of_separated (hx : c ∉ xs) (hx' : c ∉ xs') (hy : ∀ a ∈ ys.head?, a = c)
    (hy' : ∀ a ∈ ys'.head?, a = c) (h : xs ++ ys = xs' ++ ys') : xs = xs' ∧ ys = ys' := by
  induction xs generalizing xs' with
  | nil =>
    rcases xs' with - | ⟨a, xs'⟩
    · exact ⟨rfl, h⟩
    · obtain rfl := hy a (by rw [show ys = _ from h]; rfl)
      exact absurd List.mem_cons_self hx'
  | cons a xs ih =>
    rcases xs' with - | ⟨a', xs'⟩
    · obtain rfl := hy' a (by rw [show ys' = _ from h.symm]; rfl)
      exact absurd List.mem_cons_self hx
    · obtain ⟨rfl, htail⟩ := List.cons.inj h
      obtain ⟨rfl, hrest⟩ := ih (mt (List.mem_cons_of_mem _) hx) (mt (List.mem_cons_of_mem _) hx')
        htail
      exact ⟨rfl, hrest⟩

theorem intercalate_cons (row : List α) (rows : List (List α)) : xs.intercalate (row :: rows) =
    row ++ if rows = [] then [] else xs ++ xs.intercalate rows := by
  rcases rows with - | ⟨next, rows⟩
  · simp
  · simp [List.intercalate_cons_cons]

/-- What stands between separators is there, and nothing else but separators. -/
theorem mem_intercalate_iff (hc : c ∉ xs) {rows : List (List α)} :
    c ∈ xs.intercalate rows ↔ ∃ row ∈ rows, c ∈ row := by
  induction rows with
  | nil => simp
  | cons row rows ih =>
    rw [intercalate_cons, List.mem_append]
    by_cases hnil : rows = []
    · simp [hnil]
    · simp [hnil, hc, ih]

/-- Rows without the separator are told apart when they stand between separators. -/
theorem intercalate_injective {rows rows' : List (List α)} (hx : ∀ row ∈ rows, c ∉ row)
    (hx' : ∀ row ∈ rows', c ∉ row) (hne : rows ≠ []) (hne' : rows' ≠ [])
    (h : [c].intercalate rows = [c].intercalate rows') : rows = rows' := by
  induction rows generalizing rows' with
  | nil => exact absurd rfl hne
  | cons row rows ih =>
    obtain ⟨row', rows', rfl⟩ := List.exists_cons_of_ne_nil hne'
    have hrow := hx row List.mem_cons_self
    have hrow' := hx' row' List.mem_cons_self
    rw [intercalate_cons, intercalate_cons] at h
    obtain ⟨rfl, htail⟩ := append_inj_of_separated hrow hrow' (by split <;> simp)
      (by split <;> simp) h
    by_cases hnil : rows = []
    · subst hnil
      by_cases hnil' : rows' = []
      · rw [hnil']
      · rw [if_pos rfl, if_neg hnil'] at htail
        cases htail
    · by_cases hnil' : rows' = []
      · rw [if_neg hnil, if_pos hnil'] at htail
        cases htail
      · rw [if_neg hnil, if_neg hnil'] at htail
        rw [ih (fun r hr => hx r (List.mem_cons_of_mem _ hr))
          (fun r hr => hx' r (List.mem_cons_of_mem _ hr)) hnil hnil' (List.cons.inj htail).2]

end

/-! ## Numerals -/

/-- A text of digits, signs, slashes and points. -/
def IsNumeral (t : String) : Prop := ∀ c ∈ t.toList, c.isDigit ∨ c ∈ ['-', '/', '.']

variable {t : String}

/-- Anything else than digits and their marks separates numerals. -/
theorem IsNumeral.notMem (h : IsNumeral t) {c : Char} (hdigit : c.isDigit = false)
    (hmark : c ∉ ['-', '/', '.']) : c ∉ t.toList := by
  intro hc
  rcases h c hc with hc | hc
  · rw [hdigit] at hc
    cases hc
  · exact hmark hc

theorem isNumeral_of_withSign {negative : Bool} {body : List Char}
    (ht : t.toList = Ratio.withSign negative body)
    (h : ∀ c ∈ body, c.isDigit ∨ c ∈ ['/', '.']) : IsNumeral t := by
  have hbody : ∀ c ∈ body, c.isDigit ∨ c ∈ ['-', '/', '.'] := fun c hc =>
    (h c hc).imp_right (List.mem_cons_of_mem _)
  intro c hc
  rw [ht] at hc
  cases negative with
  | false => exact hbody c hc
  | true =>
    rcases List.mem_cons.mp hc with rfl | hc
    · exact .inr List.mem_cons_self
    · exact hbody c hc

theorem isNumeral_int (n : Int) : IsNumeral (toString n) :=
  isNumeral_of_withSign (Ratio.toList_intRepr n) fun c hc => .inl (Ratio.isDigit_toDigits c hc)

theorem isNumeral_text (q : ℚ) : IsNumeral (Ratio.text q) := by
  rw [Ratio.text]
  split
  · exact isNumeral_int _
  · intro c hc
    rw [String.toList_append, String.toList_append, List.mem_append, List.mem_append] at hc
    rcases hc with (hc | hc) | hc
    · exact isNumeral_int _ c hc
    · exact .inr (by simp at hc; simp [hc])
    · exact isNumeral_int q.den c hc

theorem isNumeral_decimal {q : ℚ} {d : Ratio.Decimal} (h : Ratio.decimal? q = some d) :
    IsNumeral d.text := by
  obtain ⟨-, hdigits, -⟩ := Ratio.fraction_of_decimal? h
  refine isNumeral_of_withSign (Ratio.toList_decimal d) fun c hc => ?_
  rcases List.mem_append.mp hc with hc | hc
  · exact .inl (Ratio.isDigit_toDigits c hc)
  · split at hc
    · cases hc
    · rcases List.mem_cons.mp hc with rfl | hc
      · exact .inr (by simp)
      · exact .inl (hdigits c hc)

end Intonation.Text
