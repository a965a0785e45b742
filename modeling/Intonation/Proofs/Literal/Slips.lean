import Intonation.Proofs.FJS.Faults
import Intonation.Proofs.FJS.Rows
import Intonation.Proofs.Fields.Context

/-!
# What lowering does not handle

The constructors of literals accept more than lowering handles. The slips are listed one by one:
digits that are none, huge real numbers, note names of no or several letters, inflections by primes
beyond the table, vectors longer than the table, and numbers so large that no double comes near.

## Main definitions

* `Literal.Accepted`: literals whose parts the constructors accept
* `Literal.Escapes`, `Literal.Slip`: the faults that are neither overflows nor malformed literals
* `Literal.Permitted`: the faults of lowering, as far as a literal gives cause for them
-/

namespace Intonation
open Double

/-! ## What may be lowered -/

namespace Literal

/-- A literal whose parts the constructors accept. -/
def Accepted : Literal → Prop
  | decimal d _ | cents d _ => Digits.make d.whole d.fraction d.exponent d.negative = .ok d
  | interval p i => (∃ quality, Pythagorean.make quality p.degree = .ok p) ∧ i.make = .ok i
  | pitch p i => (∃ marks, Pitch.make p.nominal marks p.octave = .ok p) ∧ i.make = .ok i
  | superparticular start stop => makeSuperparticular start stop = .ok (superparticular start stop)
  | _ => True

/-! ## The numbers of a literal -/

/-- The numbers of a literal that become exponents or count steps. -/
def counts : Literal → List ℚ
  | cents d false => d.toRatio.toOption.toList.map (· / 1200)
  | steps w => w.fraction?.toList
  | radical _ exponent => [exponent]
  | interval p i => [p.upwards.twos, p.upwards.threes, i.ups, i.lifts]
  | pitch p i => (p.skeleton.toOption.toList.flatMap fun v => [v.twos, v.threes]) ++
    [(i.ups : ℚ), (i.lifts : ℚ)]
  | monzo w | val w => w.entries ++ [(w.ups : ℚ), (w.lifts : ℚ)]
  | _ => []

/-- The inflections of a literal by commas. -/
def inflections : Literal → List Inflection
  | interval _ i | pitch _ i => i.superscripts ++ i.subscripts
  | _ => []

/-- The ratios of a literal that are raised to a power. -/
def roots : Literal → List ℚ
  | steps w => [w.equave?.getD 2]
  | radical argument _ => [argument]
  | monzo w => w.basis
  | _ => []

/-- The ratios of a literal that are factored. -/
def ratios : Literal → List ℚ
  | integer n => [(n : ℚ)]
  | fraction n d => [(n : ℚ) / d]
  | decimal _ .real => []
  | decimal d _ => d.toRatio.toOption.toList
  | superparticular start stop => [superparticularRatio start stop]
  | l => l.roots ++ l.inflections.map fun i => (i.number : ℚ)

/-! ## Slips -/

/-- A number of the literal or of what it is lowered in is astronomical. -/
inductive Immense (s : Settings) (c : Context) (l : Literal) : Prop
  | settings (h : 2 ^ 900 < s.absurdExponent)
  | reference (h : l.isAbsolute) (hc : c.c4.Immense)
  | count (q : ℚ) (h : q ∈ l.counts) (hq : 2 ^ 900 < |q|)
  | ratio (q : ℚ) (h : q ∈ l.ratios) (hq : 2 ^ 100 < Ratio.bits q)

/-- A ratio of the literal leaves a residual whose size in cents is no finite double. -/
def Unsized (s : Settings) (l : Literal) : Prop :=
  ∃ q ∈ l.roots, ¬ (1200 * log2Ratio (Prime.split s.primes q).2).isFinite

/-- A vector with a nonzero entry beyond the table. -/
def Overlong : Literal → Prop
  | monzo w | val w => w.basis = [] ∧ ∃ e ∈ w.entries.drop Prime.tableSize, e ≠ 0
  | _ => False

/-- More components than the table has primes take part in a product. -/
def Sprawling (c : Context) : Literal → Prop
  | pitch .. => c.c4.Sprawling
  | monzo w | val w => w.basis = [] ∧ Prime.tableSize < w.entries.length ∧ (w.ups ≠ 0 ∨ w.lifts ≠ 0)
  | _ => False

/-- The slips that nothing else comes before: whatever it is lowered in, the literal fails so. -/
inductive Escapes : Literal → Fault → Prop
  /-- The fractional part holds a character that is like a digit but is none. -/
  | decimalDigits {d : Digits} {flavor : DecimalFlavor} (h : d.toRatio = .error .notNumeric) :
      Escapes (decimal d flavor) .notNumeric
  | centsDigits {d : Digits} {real : Bool} (h : d.toRatio = .error .notNumeric) :
      Escapes (cents d real) .notNumeric
  /-- A real decimal is too large for a double. -/
  | hugeReal {d : Digits} {q : ℚ} (h : d.toRatio = .ok q) (hq : ofRat? q = none) :
      Escapes (decimal d .real) .tooLarge
  | hugeCents {d : Digits} {q : ℚ} (h : d.toRatio = .ok q) (hq : ofRat? q = none) :
      Escapes (cents d true) .tooLarge
  /-- The note name has no letter, or several. -/
  | nominal {p : Pitch} {i : Inflections} (h : Pitch.naturals.lookup p.nominal = none) :
      Escapes (pitch p i) .nominalWithoutVector

/-- The faults of lowering that are neither overflows nor malformed literals, with their causes. -/
inductive Slip (s : Settings) (c : Context) (l : Literal) : Fault → Prop
  | escapes {f : Fault} (h : Escapes l f) : Slip s c l f
  /-- An inflection by a number with a prime factor beyond the table. -/
  | prime {i : Inflection} {p : Nat} (hi : i ∈ l.inflections) (hp : p.Prime)
      (hlarge : Prime.tableLimit < p) (hdvd : (p : Int) ∣ i.number) :
      Slip s c l (.primeBeyondTable i.number)
  /-- An inflection by a number with a prime factor that has no comma. -/
  | region {i : Inflection} {j p : Nat} (hi : i ∈ l.inflections)
      (hp : Prime.table[j + 2]? = some p) (hdvd : (p : Int) ∣ i.number)
      (hnone : Comma.vector? i.flavor j p = none) : Slip s c l .noRegion
  | component (h : l.Overlong) : Slip s c l .componentBeyondTable
  | table (h : l.Sprawling c) : Slip s c l .tableExhausted
  | size (h : l.Unsized s) : Slip s c l .invalidCents
  | immense (h : l.Immense s c) : Slip s c l .tooLarge

/-- No slip is an overflow or a malformed literal. -/
theorem Slip.family {s : Settings} {c : Context} {l : Literal} {f : Fault} (h : Slip s c l f) :
    f.family ≠ .overflow ∧ f.family ≠ .malformed := by
  cases h with
  | escapes h => cases h <;> decide
  | _ => exact ⟨by simp [Fault.family], by simp [Fault.family]⟩

/-- The faults that lowering may end with before overflows are reported as malformed literals. -/
def Permitted (s : Settings) (c : Context) (l : Literal) (f : Fault) : Prop :=
  f.family = .overflow ∨ f.family = .malformed ∨ Slip s c l f

namespace Permitted

variable {s : Settings} {c : Context} {l : Literal} {q : ℚ} {i : Inflection}

theorem of_overflow (f : Fault) (h : f.family = .overflow) : Permitted s c l f := .inl h

theorem of_malformed {f : Fault} (h : f.family = .malformed) : Permitted s c l f := .inr (.inl h)

theorem of_slip {f : Fault} (h : Slip s c l f) : Permitted s c l f := .inr (.inr h)

theorem settings_le : Permitted s c l .tooLarge ∨ s.absurdExponent ≤ 2 ^ 900 := by
  rcases lt_or_ge (2 ^ 900) s.absurdExponent with h | h
  · exact .inl (of_slip (.immense (.settings h)))
  · exact .inr h

theorem count_le (h : q ∈ l.counts) : Permitted s c l .tooLarge ∨ |q| ≤ 2 ^ 900 := by
  rcases lt_or_ge (2 ^ 900) |q| with hq | hq
  · exact .inl (of_slip (.immense (.count q h hq)))
  · exact .inr hq

theorem counts_le {es : List ℚ} (h : ∀ e ∈ es, e ∈ l.counts) :
    Permitted s c l .tooLarge ∨ ∀ e ∈ es, |e| ≤ 2 ^ 900 := by
  by_cases hF : Permitted s c l .tooLarge
  · exact .inl hF
  · exact .inr fun e he => (count_le (h e he)).resolve_left hF

theorem bits_le (h : q ∈ l.ratios) : Permitted s c l .tooLarge ∨ Ratio.bits q ≤ 2 ^ 100 := by
  rcases lt_or_ge (2 ^ 100) (Ratio.bits q) with hq | hq
  · exact .inl (of_slip (.immense (.ratio q h hq)))
  · exact .inr hq

theorem size_finite (h : q ∈ l.roots) : Permitted s c l .invalidCents ∨
    (1200 * log2Ratio (Prime.split s.primes q).2).isFinite := by
  by_cases hq : (1200 * log2Ratio (Prime.split s.primes q).2).isFinite
  · exact .inr hq
  · exact .inl (of_slip (.size ⟨q, h, hq⟩))

theorem component (h : l.Overlong) : Permitted s c l .componentBeyondTable :=
  of_slip (.component h)

/-- An inflection of a literal slips when its number has a prime factor beyond the table, or one
without a comma. -/
theorem harmless (hi : i ∈ l.inflections) (hratio : (i.number : ℚ) ∈ l.ratios)
    (hpos : 0 < i.number) : i.Harmless (Permitted s c l) where
  pos := hpos
  factored hnone := by
    obtain ⟨p, hp, hlarge, hdvd⟩ := Prime.exists_prime_of_limit?_eq_none
      (by exact_mod_cast hpos.ne') hnone
    rw [Rat.num_intCast, Rat.den_intCast, Nat.dvd_one, or_iff_left hp.ne_one] at hdvd
    exact of_slip (.prime hi hp hlarge (Int.natCast_dvd.mpr hdvd))
  small := bits_le hratio
  region j p hp hdvd hnone := of_slip (.region hi hp hdvd hnone)

end Permitted

end Literal

end Intonation
