import Intonation.Interval.Arithmetic
import Intonation.Interval.Registry
import Intonation.Proofs.Literal.Slips

/-!
# Comma flavors of literals

Named literals and placeholders carry comma flavors. A placeholder that comes out of arithmetic
takes its flavor from the operands, so when the operands carry known flavors it does too.

## Main definitions

* `Literal.Flavored`: literals whose comma flavors are known

## Main statements

* `Literal.Accepted.flavored`: constructors accept known flavors only
* `Literal.flavored_add` and its like: arithmetic on literals keeps to known flavors
-/

namespace Intonation

namespace Literal

/-- The comma flavors of a literal are known. -/
def Flavored (l : Literal) : Prop := ∀ flavor ∈ l.commaFlavors, flavor ∈ Inflection.flavors

/-- The comma flavors of a literal are known, if there is one. -/
def Flavored? (l : Option Literal) : Prop := ∀ k, l = some k → k.Flavored

variable {s : Settings} {a b l : Literal}

theorem Flavored.of_nil (h : l.commaFlavors = []) : l.Flavored := by
  rw [Flavored, h]
  exact fun flavor hflavor => by cases hflavor

theorem Flavored?.none : Flavored? none := fun k h => by cases h

theorem Flavored?.some (h : l.Flavored) : Flavored? (some l) := fun k hk => by
  cases hk
  exact h

/-- Literals without names carry no flavors. -/
theorem Flavored?.plain (h : l.commaFlavors = []) : Flavored? (.some l) := .some (.of_nil h)

theorem Flavored?.of_nil {o : Option Literal} (h : ∀ k, o = .some k → k.commaFlavors = []) :
    Flavored? o := fun k hk => .of_nil (h k hk)

theorem Flavored?.bind {o : Option Literal} {f : Literal → Option Literal} (ho : Flavored? o)
    (h : ∀ k, k.Flavored → Flavored? (f k)) : Flavored? (o.bind f) := by
  cases o with
  | none => exact .none
  | some k => exact h k (ho k rfl)

theorem Flavored?.within {o : Option Literal} (ho : Flavored? o) (d : Domain) :
    Flavored? (within d o) := fun k hk => ho k (Option.filter_eq_some_iff.mp hk).1

/-- Constructors accept known flavors only. -/
theorem Accepted.flavored (h : l.Accepted) (hl : l.isAspiring = false) : l.Flavored := by
  have hnames : ∀ i : Inflections, i.make = .ok i →
      ∀ flavor ∈ (i.superscripts ++ i.subscripts).map Inflection.flavor,
        flavor ∈ Inflection.flavors := by
    intro i hi flavor hflavor
    obtain ⟨k, hk, rfl⟩ := List.mem_map.mp hflavor
    exact (Inflections.make_eq_iff.mp hi k hk).1
  cases l with
  | interval p i => exact hnames i h.2
  | pitch p i => exact hnames i h.2
  | aspiringInterval flavor => cases hl
  | aspiringPitch flavor => cases hl
  | _ => exact .of_nil rfl

/-! ## Flavors that are inferred -/

theorem soleFlavor_mem {row : List String} (h : ∀ flavor ∈ row, flavor ∈ Inflection.flavors) :
    soleFlavor row ∈ Inflection.flavors := by
  have hdefault : "" ∈ Inflection.flavors := by decide
  cases row with
  | nil => exact hdefault
  | cons flavor row =>
    rw [soleFlavor]
    split
    · exact h flavor List.mem_cons_self
    · exact hdefault

theorem inferFlavor_mem {ls : List Literal} (h : ∀ l ∈ ls, l.Flavored) :
    inferFlavor ls ∈ Inflection.flavors := by
  refine soleFlavor_mem fun flavor hflavor => ?_
  obtain ⟨l, hl, hmem⟩ := List.mem_flatMap.mp hflavor
  exact h l hl flavor hmem

/-- Placeholders of literals with known flavors have a known flavor. -/
theorem flavored_inferred {ls : List Literal} (h : ∀ l ∈ ls, l.Flavored) :
    (aspiringInterval (inferFlavor ls)).Flavored ∧ (aspiringPitch (inferFlavor ls)).Flavored := by
  have hmem := inferFlavor_mem h
  constructor <;> exact fun flavor hflavor => List.mem_singleton.mp hflavor ▸ hmem

theorem flavored_inferred_one (ha : a.Flavored) :
    (aspiringInterval (inferFlavor [a])).Flavored ∧ (aspiringPitch (inferFlavor [a])).Flavored :=
  flavored_inferred (by simpa using ha)

theorem flavored_inferred_two (ha : a.Flavored) (hb : b.Flavored) :
    (aspiringInterval (inferFlavor [a, b])).Flavored ∧
      (aspiringPitch (inferFlavor [a, b])).Flavored :=
  flavored_inferred (by simpa using ⟨ha, hb⟩)

/-! ## Arithmetic -/

theorem flavored_ofRatio {q : ℚ} : (ofRatio q).Flavored := by
  unfold ofRatio
  split <;> exact .of_nil rfl

theorem flavored_ofDecimal? {q : ℚ} {flavor : DecimalFlavor} : Flavored? (ofDecimal? q flavor) := by
  unfold ofDecimal?
  split
  · exact .none
  · refine .of_nil fun k hk => ?_
    obtain ⟨d, -, rfl⟩ := Option.map_eq_some_iff.mp hk
    rfl

theorem flavored_ofCents? {q : ℚ} : Flavored? (ofCents? q) := by
  refine .of_nil fun k hk => ?_
  obtain ⟨d, -, rfl⟩ := Option.map_eq_some_iff.mp hk
  rfl

theorem flavored_combineSteps {op : Int → Int → Int} {v w : Steps} :
    Flavored? (combineSteps op v w) := by
  unfold combineSteps
  split
  · exact .none
  · exact .plain rfl

theorem flavored_combineCents {op : ℚ → ℚ → ℚ} {d : Digits} :
    Ensures Flavored? (combineCents op d b) := by
  refine Ensures.bind_any fun x => Ensures.bind_any fun y => ?_
  split
  · exact flavored_ofCents?
  · exact .none

theorem flavored_combineDecimals {op : ℚ → ℚ → ℚ} {d e : Digits} {f g : DecimalFlavor} :
    Ensures Flavored? (combineDecimals op d e f g) := by
  unfold combineDecimals
  split
  · exact .none
  · exact Ensures.bind_any fun x => Ensures.bind_any fun y => flavored_ofDecimal?

theorem flavored_combineFractions {op : Int → Int → Int} {m d n e : Int} :
    (combineFractions op m d n e).Flavored := by
  unfold combineFractions
  split <;> exact .of_nil rfl

/-- A literal of a kind that carries no flavors, whatever it is made of. -/
theorem Flavored?.map {α : Type} {o : Option α} {f : α → Literal} (h : ∀ x, (f x).Flavored) :
    Flavored? (o.map f) := fun k hk => by
  obtain ⟨x, -, rfl⟩ := Option.map_eq_some_iff.mp hk
  exact h x

theorem Flavored?.ite {c : Prop} [Decidable c] {o p : Option Literal} (ho : Flavored? o)
    (hp : Flavored? p) : Flavored? (if c then o else p) := by
  split
  · exact ho
  · exact hp

theorem flavored_add (ha : a.Flavored) (hb : b.Flavored) : Ensures Flavored? (a.add b) := by
  obtain ⟨hinterval, hpitch⟩ := flavored_inferred_two ha hb
  unfold add
  split
  · exact .plain rfl
  · exact .some flavored_combineFractions
  · exact flavored_combineDecimals
  · exact flavored_combineCents
  · exact flavored_combineSteps
  · exact Flavored?.map fun _ => .of_nil rfl
  · exact Flavored?.map fun _ => .of_nil rfl
  · exact Flavored?.ite (.some hinterval) (.ite (.some hpitch) .none)

theorem flavored_sub (ha : a.Flavored) (hb : b.Flavored) : Ensures Flavored? (a.sub b) := by
  obtain ⟨hinterval, hpitch⟩ := flavored_inferred_two ha hb
  unfold sub
  split
  · exact .plain rfl
  · exact .some flavored_combineFractions
  · exact flavored_combineDecimals
  · exact flavored_combineCents
  · exact flavored_combineSteps
  · exact Flavored?.map fun _ => .of_nil rfl
  · exact Flavored?.map fun _ => .of_nil rfl
  · exact Flavored?.ite (.some hinterval) (.ite (.some hpitch) .none)

theorem flavored_scale {factor : Int} (ha : a.Flavored) : Ensures Flavored? (scale factor a) := by
  unfold scale
  split
  · exact Ensures.bind_any fun q => flavored_ofCents?
  · exact .plain rfl
  · exact .plain rfl
  · exact .plain rfl
  · exact Flavored?.ite (.some (flavored_inferred_one ha).1) .none

theorem flavored_mul (ha : a.Flavored) (hb : b.Flavored) : Ensures Flavored? (a.mul b) := by
  have hexact : (mulExact a b).Flavored := by
    unfold mulExact
    split <;> exact .of_nil rfl
  unfold mul
  split
  · exact .some hexact
  · split
    · exact flavored_scale hb
    · exact flavored_scale ha
    · exact Flavored?.ite (.some (flavored_inferred_two ha hb).1) .none

theorem flavored_divExact {x y : ℚ} : Flavored? (divExact a b x y) := by
  unfold divExact
  split
  · exact .none
  · split
    · split <;> exact .plain rfl
    · exact .some flavored_ofRatio

theorem flavored_divSteps {v w : Steps} : Flavored? (divSteps v w) := by
  unfold divSteps
  split
  · exact .none
  · split
    · exact Flavored?.ite .none (.some flavored_ofRatio)
    · exact .none

theorem flavored_div (ha : a.Flavored) : Ensures Flavored? (a.div b) := by
  unfold div
  split
  · exact flavored_divExact
  · split
    · exact flavored_divSteps
    · refine Ensures.bind_any fun x => Ensures.bind_any fun y => ?_
      split
      · exact Flavored?.ite .none (.some flavored_ofRatio)
      · exact .none
    · exact Flavored?.ite .none (.plain rfl)
    · exact Flavored?.ite (.some (flavored_inferred_one ha).1) .none

theorem flavored_neg (ha : a.Flavored) : Flavored? a.neg := by
  unfold neg
  split
  · exact .plain rfl
  · exact .plain rfl
  · exact .plain rfl
  · exact .plain rfl
  · exact .plain rfl
  · exact .plain rfl
  · exact .plain rfl
  · exact Flavored?.ite (.some (flavored_inferred_one ha).1) .none

theorem flavored_invert : Flavored? a.invert := by
  unfold invert
  split
  · exact Flavored?.ite .none (.ite (.plain rfl) (.plain rfl))
  · exact Flavored?.ite .none (.ite (.plain rfl) (.plain rfl))
  · exact .none

theorem flavored_abs (ha : a.Flavored) : Flavored? a.abs := by
  have hsteps : ∀ w : Steps, Flavored? (absSteps w) := by
    intro w
    unfold absSteps
    split
    · exact .none
    · split
      · exact Flavored?.ite .none (.plain rfl)
      · exact .plain rfl
  unfold abs
  split
  · exact .plain rfl
  · exact .plain rfl
  · exact .plain rfl
  · exact .plain rfl
  · exact hsteps _
  · exact Flavored?.ite (.some (flavored_inferred_one ha).1) .none

theorem flavored_pow : Flavored? (pow s a b) := by
  have hwhole : ∀ (base : ℚ) (exponent : Int), Flavored? (powWhole s a base exponent) := by
    intro base exponent
    unfold powWhole
    split
    · exact .none
    · split
      · exact .none
      · extract_lets result
        split
        · exact Flavored?.ite (.plain rfl) (.plain rfl)
        · exact .plain rfl
  unfold pow
  split
  · exact Flavored?.ite (hwhole _ _) (.ite .none (.plain rfl))
  · exact .none

theorem flavored_project : Flavored? (project a b) := by
  unfold project
  split
  · exact Flavored?.ite .none (.plain rfl)
  · exact .none

/-! ## Measuring -/

/-- What is measured through values is a ratio. -/
theorem flavored_throughValues {op : Monzo → Monzo → Except Fault Value} :
    Flavored? (throughValues s op a b) := by
  unfold throughValues
  split
  · exact .map fun _ => flavored_ofRatio
  · exact .none

theorem flavored_modulo {ceiling : Bool} : Ensures Flavored? (modulo s ceiling a b) := by
  unfold modulo
  split
  · exact Flavored?.ite .none flavored_combineSteps
  · refine Ensures.bind_any fun x => Ensures.bind_any fun y => ?_
    split
    · exact Flavored?.ite .none flavored_ofCents?
    · exact flavored_throughValues

theorem flavored_lensSizes {op : ℚ → ℚ → ℚ} (ha : a.Flavored) (hb : b.Flavored) :
    Ensures Flavored? (lensSizes op a b) := by
  unfold lensSizes
  split
  · refine Flavored?.ite .none ?_
    split
    · exact Flavored?.ite (.some ha) (.ite (.some hb) (.map fun _ => .of_nil rfl))
    · exact .none
  · refine Ensures.bind_any fun x => Ensures.bind_any fun y => ?_
    split
    · refine Flavored?.ite (.some ha) (.ite (.some hb) ?_)
      intro k hk
      obtain ⟨q, -, hq⟩ := Option.bind_eq_some_iff.mp hk
      exact flavored_ofCents? k hq
    · exact .none

theorem flavored_lensAdd (ha : a.Flavored) (hb : b.Flavored) :
    Ensures Flavored? (lensAdd s a b) := by
  unfold lensAdd
  split
  · exact flavored_throughValues
  · exact flavored_lensSizes ha hb

theorem flavored_lensSub (ha : a.Flavored) (hb : b.Flavored) :
    Ensures Flavored? (lensSub s a b) := by
  unfold lensSub
  split
  · exact flavored_throughValues
  · exact flavored_lensSizes ha hb

theorem flavored_roundTo : Ensures Flavored? (roundTo s a b) := by
  have hsteps : ∀ v w : Steps, Flavored? (roundSteps v w) := by
    intro v w
    unfold roundSteps
    split
    · exact .none
    · split
      · exact Flavored?.ite .none (.plain rfl)
      · exact .none
  unfold roundTo
  split
  · exact hsteps _ _
  · refine Ensures.bind_any fun x => Ensures.bind_any fun y => ?_
    split
    · exact Flavored?.ite .none flavored_ofCents?
    · exact flavored_throughValues

/-! ## Optional literals -/

theorem flavored_combine {op : Literal → Literal → Except Fault (Option Literal)}
    (h : ∀ a b, a.Flavored → b.Flavored → Ensures Flavored? (op a b)) {o p : Option Literal}
    (ho : Flavored? o) (hp : Flavored? p) : Ensures Flavored? (combine op o p) := by
  cases o with
  | none => exact .none
  | some a =>
    cases p with
    | none => exact .none
    | some b => exact h a b (ho a rfl) (hp b rfl)

theorem flavored_combine? {op : Literal → Literal → Option Literal}
    (h : ∀ a b, Flavored? (op a b)) {o p : Option Literal} : Flavored? (combine? op o p) := by
  cases o with
  | none => exact .none
  | some a =>
    cases p with
    | none => exact .none
    | some b => exact h a b

/-! ## Respelling -/

theorem flavored_asFraction {v : Value} {reference : Option (Int × Int)} :
    Flavored? (asFraction v reference) := by
  unfold asFraction
  split
  · split
    · extract_lets q
      split
      · exact Flavored?.ite (.plain rfl) (.plain rfl)
      · exact .plain rfl
    · exact .none
  · exact .none

theorem flavored_asSteps {v : Value} {reference : Option Steps} :
    Flavored? (asSteps v reference) := by
  have hlike : ∀ (w : Steps) (x y : ℚ), Flavored? (stepsLike w x y) := by
    intro w x y
    unfold stepsLike
    extract_lets written
    exact .ite .none (.ite (.plain rfl) (.plain rfl))
  have hplain : ∀ x y : ℚ, Flavored? (plainSteps x y) := fun x y => by
    unfold plainSteps
    exact .ite (.plain rfl) .none
  unfold asSteps
  split
  · refine Flavored?.ite ?_ .none
    cases reference with
    | none => exact hplain _ _
    | some w => exact hlike w _ _
  · exact .none

/-- A respelling of a kind without names carries no flavors, and any other is a placeholder. -/
theorem flavored_respell {v : Value} {simplify : Bool} (ha : a.Flavored) :
    Flavored? (respell v a simplify) := by
  unfold respell
  split
  · unfold asInteger
    split
    · exact Flavored?.ite (.plain rfl) .none
    · exact .none
  · exact flavored_asFraction
  · unfold asDecimal
    split
    · exact Flavored?.ite flavored_ofDecimal? .none
    · exact .none
  · exact flavored_asSteps
  · unfold asCents
    split
    · exact Flavored?.ite flavored_ofCents? .none
    · exact .none
  · refine Flavored?.ite ?_ .none
    unfold asMonzo
    split
    · exact Flavored?.ite (.plain rfl) .none
    · exact .none
  · unfold asRadical
    split
    · exact Flavored?.ite (.plain rfl) .none
    · exact .none
  · obtain ⟨hinterval, hpitch⟩ := flavored_inferred_one ha
    exact .ite (.some hinterval) (.ite (.some hpitch) .none)

theorem flavored_orRespelled {v : Value} {o p q : Option Literal} (ho : Flavored? o)
    (hq : Flavored? q) : Flavored? (orRespelled v o p q) := by
  unfold orRespelled
  split
  · exact hq
  · next a b => exact .ite (flavored_respell (ho a rfl)) .none
  · exact .none

theorem flavored_renamed {named o : Option Literal} (hnamed : Flavored? named)
    (ho : Flavored? o) : Flavored? (renamed named o) := by
  unfold renamed
  split
  · next n => exact .ite (.some (flavored_inferred_one (hnamed n rfl)).1) ho
  · exact ho

end Literal

end Intonation
