import Intonation.Proofs.Interval.Linear
import Intonation.Proofs.Interval.Obtained

/-!
# Metadata of expressions

An expression combines intervals by any of the operators that give an interval. Whatever the
operators do to values and literals, the metadata of the result is read off the leaves: all of
their identifiers, the first color and the first label.

## Main definitions

* `IntervalExpr`, `IntervalExpr.eval`: expressions of intervals and their evaluation
* `IntervalExpr.leaves`: the intervals of an expression from left to right
* `Metadata.Merges`: metadata that merges that of two operands
* `Metadata.Gathers`: metadata that is read off a row of leaves

## Main statements

* `Quantity.metadata_unary`, `Quantity.merges_binary`: what an operator does to metadata
* `IntervalExpr.metadata_eval`: the metadata of an expression is read off its leaves
-/

namespace Intonation

/-! ## Merged metadata -/

namespace Metadata

/-- The identifiers of two operands, with the color and the label of the first that has one. -/
structure Merges (m a b : Metadata) : Prop where
  mem_trackingIds : ∀ id, id ∈ m.trackingIds ↔ id ∈ a.trackingIds ∨ id ∈ b.trackingIds
  color : m.color = a.color.or b.color
  label : m.label = preferLabel a.label b.label

/-- The identifiers of all leaves, with the color and the label of the first that has one. -/
structure Gathers (m : Metadata) (leaves : List Metadata) : Prop where
  mem_trackingIds : ∀ id, id ∈ m.trackingIds ↔ ∃ leaf ∈ leaves, id ∈ leaf.trackingIds
  color : m.color = leaves.findSome? color
  label : m.label = ((leaves.map label).find? fun l => !l.isEmpty).getD ""

theorem merges_infect (a b : Metadata) : (a.infect b).Merges a b where
  mem_trackingIds _ := TrackingIds.mem_union
  color := rfl
  label := rfl

/-- Operands that were swapped merge in their first order again. -/
theorem merges_favor (a b : Metadata) : ((b.infect a).favor a b).Merges a b where
  mem_trackingIds _ := TrackingIds.mem_union.trans or_comm
  color := rfl
  label := rfl

theorem gathers_leaf (m : Metadata) : m.Gathers [m] where
  mem_trackingIds id := by simp
  color := by cases h : m.color <;> simp [h]
  label := by
    by_cases h : m.label.isEmpty = true
    · simp [String.isEmpty_iff.mp h]
    · simp [h]

theorem Gathers.merge {m a b : Metadata} {xs ys : List Metadata} (h : m.Merges a b)
    (ha : a.Gathers xs) (hb : b.Gathers ys) : m.Gathers (xs ++ ys) where
  mem_trackingIds id := by
    rw [h.mem_trackingIds, ha.mem_trackingIds, hb.mem_trackingIds]
    simp only [List.mem_append, or_and_right, exists_or]
  color := by rw [h.color, ha.color, hb.color, List.findSome?_append]
  label := by
    rw [h.label, ha.label, hb.label, List.map_append, List.find?_append, preferLabel]
    cases hx : (xs.map Metadata.label).find? fun l => !l.isEmpty with
    | none => simp
    | some l =>
      have hl : l.isEmpty = false := by simpa using List.find?_some hx
      simp [hl]

end Metadata

/-! ## Operators -/

namespace Interval

variable {s : Settings} {a b i : Interval}

theorem metadata_make {v : Value} {d : Domain} {l : Option Literal} {m : Metadata} :
    Ensures (fun k => k.metadata = m) (make v d l m) := by
  unfold make
  split
  · trivial
  · exact rfl

theorem metadata_neg : Ensures (fun k => k.metadata = i.metadata) (i.neg s) := by
  unfold neg
  split <;> exact Ensures.bind_any fun _ => rfl

theorem metadata_abs : Ensures (fun k => k.metadata = i.metadata) (i.abs s) := by
  unfold abs
  split <;> exact Ensures.bind_any fun _ => rfl

theorem metadata_move {c : Context} {arrow : Arrow} :
    Ensures (fun k => k.metadata = i.metadata) (i.move s c arrow) :=
  Ensures.bind_any fun _ => rfl

/-- Operators that do one thing to linear values and another to logarithmic ones. -/
theorem metadata_chosen {u : Except Fault Unit} {x : Except Fault (Option Literal)} {c : Prop}
    [Decidable c] {v w : Except Fault Value} {d : Domain}
    {literal : Option Literal → Value → Option Literal} {m : Metadata} :
    Ensures (fun k => k.metadata = m) (do
      u
      let l ← x
      let value ← if c then v else w
      make value d (literal l value) m) := by
  refine Ensures.bind_any fun _ => Ensures.bind_any fun _ => ?_
  extract_lets finish
  split <;> exact Ensures.bind_any fun _ => metadata_make

theorem metadata_scaled {scalar : Interval} {l : Option Literal} {m : Metadata} :
    Ensures (fun k => k.metadata = m) (i.scaled s scalar l m) := by
  unfold scaled
  extract_lets finish
  split <;> exact Ensures.bind_any fun _ => metadata_make

/-- A product merges in the order of its operands, whichever of them is scaled. -/
theorem metadata_mul : Ensures (fun k => k.metadata = infected a b) (a.mul s b) := by
  unfold mul
  extract_lets product
  have hproduct : Ensures (fun k => k.metadata = infected a b) (product ()) := by
    refine Ensures.bind_any fun _ => ?_
    split
    · exact metadata_scaled
    · split
      · exact metadata_scaled
      · exact Ensures.bind_any fun _ => metadata_make
  split
  · trivial
  · exact hproduct

theorem metadata_div : Ensures (fun k => k.metadata = infected a b) (a.div s b) := by
  refine Ensures.bind_any fun _ => ?_
  split
  · exact Ensures.bind_any fun _ => Ensures.bind_any fun _ => metadata_make
  · split
    · exact Ensures.bind_any fun _ => Ensures.bind_any fun _ => metadata_make
    · exact Ensures.bind_any fun _ => metadata_make

theorem metadata_pitchRoundTo :
    Ensures (fun k => k.metadata = infected a b) (a.pitchRoundTo s b) := by
  refine Ensures.bind_any fun _ => ?_
  extract_lets rounded
  split
  · trivial
  · exact Ensures.bind_any fun _ => metadata_make

theorem metadata_backslash : Ensures (fun k => k.metadata = infected a b) (a.backslash s b) := by
  unfold backslash
  extract_lets steps
  split
  · trivial
  · exact Ensures.bind_any fun _ => Ensures.bind_any fun _ => Ensures.bind_any fun _ =>
      Ensures.bind_any fun _ => metadata_make

end Interval

namespace Quantity

variable {s : Settings} {a b i : Interval}

theorem ensures_toInterval {P : Interval → Prop} {x : Except Fault Interval} (h : Ensures P x) :
    Ensures P (x.map interval >>= toInterval) := by
  cases x with
  | error f => trivial
  | ok k => exact h

/-- An operator on one interval keeps its metadata. -/
theorem metadata_unary (op : Unary) :
    Ensures (fun k => k.metadata = i.metadata) (op.apply s (interval i) >>= toInterval) := by
  cases op with
  | neg => exact ensures_toInterval Interval.metadata_neg
  | abs => exact ensures_toInterval Interval.metadata_abs
  | inverse =>
    have hinverse : Ensures (fun q => Ensures (fun k => k.metadata = i.metadata) q.toInterval)
        (i.inverse s) := by
      unfold Interval.inverse
      extract_lets literal
      split
      · exact Ensures.bind_any fun _ => rfl
      · exact Ensures.bind_any fun _ => Ensures.bind_any fun _ => trivial
    exact hinverse.bind fun _ h => h
  | broken => exact rfl
  | asDomain d => exact ensures_toInterval Interval.metadata_make
  | move c arrow => exact ensures_toInterval Interval.metadata_move

/-- An operator on two intervals merges their metadata, the first before the second. -/
theorem merges_binary (op : Binary) :
    Ensures (fun k => k.metadata.Merges a.metadata b.metadata)
      (op.apply s (interval a) (interval b) >>= toInterval) := by
  have hinfected : ∀ {x : Except Fault Interval},
      Ensures (fun k => k.metadata = Interval.infected a b) x →
        Ensures (fun k => k.metadata.Merges a.metadata b.metadata)
          (x.map interval >>= toInterval) := by
    intro x hx
    refine ensures_toInterval (Meets.mono hx fun k hk => ?_)
    rw [hk]
    exact Metadata.merges_infect a.metadata b.metadata
  -- operators that take their operands from the left work on them swapped
  have hfavored : ∀ {x : Except Fault Interval},
      Ensures (fun k => k.metadata = Interval.infected b a) x →
        Ensures (fun k => k.metadata.Merges a.metadata b.metadata)
          ((do
            let result ← x
            return { result with
              metadata := result.metadata.favor a.metadata b.metadata } :
            Except Fault Interval).map interval >>= toInterval) := by
    intro x hx
    refine ensures_toInterval (hx.bind fun k hk => ?_)
    show (k.metadata.favor a.metadata b.metadata).Merges a.metadata b.metadata
    rw [hk]
    exact Metadata.merges_favor a.metadata b.metadata
  cases op with
  | add | sub | lensAdd | lensSub | modulo ceiling | roundTo =>
    exact hinfected Interval.metadata_chosen
  | lsub => exact hfavored Interval.metadata_chosen
  | ldiv => exact hfavored Interval.metadata_div
  | mul => exact hinfected Interval.metadata_mul
  | div => exact hinfected Interval.metadata_div
  | pitchRoundTo => exact hinfected Interval.metadata_pitchRoundTo
  | backslash => exact hinfected Interval.metadata_backslash
  | dot => exact hinfected (Ensures.bind_any fun _ => Ensures.bind_any fun _ => rfl)
  | ipow =>
    exact hinfected (Ensures.bind_any fun _ => Ensures.bind_any fun _ =>
      Ensures.bind_any fun _ => Interval.metadata_make)
  | project => exact hinfected (Ensures.bind_any fun _ => Interval.metadata_make)
  | pow | log | reduce ceiling | gcd | lcm =>
    exact hinfected
      (Ensures.bind_any fun _ => Ensures.bind_any fun _ => Interval.metadata_make)

end Quantity

/-! ## Expressions -/

/-- An expression of intervals. -/
inductive IntervalExpr
  | leaf (i : Interval)
  | unary (op : Quantity.Unary) (e : IntervalExpr)
  | binary (op : Quantity.Binary) (e f : IntervalExpr)

namespace IntervalExpr

/-- The interval of an expression. An operator that gives a val instead, as the inverse of a
logarithmic interval does, ends the evaluation. -/
def eval (s : Settings) : IntervalExpr → Except Fault Interval
  | leaf i => .ok i
  | unary op e => do
    let i ← e.eval s
    op.apply s (.interval i) >>= Quantity.toInterval
  | binary op e f => do
    let i ← e.eval s
    let j ← f.eval s
    op.apply s (.interval i) (.interval j) >>= Quantity.toInterval

/-- The intervals of an expression, the receiver of an operator before its argument. -/
def leaves : IntervalExpr → List Interval
  | leaf i => [i]
  | unary _ e => e.leaves
  | binary _ e f => e.leaves ++ f.leaves

theorem gathers_eval (s : Settings) (e : IntervalExpr) :
    Ensures (fun i => i.metadata.Gathers (e.leaves.map Interval.metadata)) (e.eval s) := by
  induction e with
  | leaf i => exact Metadata.gathers_leaf i.metadata
  | unary op e ih =>
    refine ih.bind fun i hi => Meets.mono (Quantity.metadata_unary op) fun k hk => ?_
    rw [hk]
    exact hi
  | binary op e f ihe ihf =>
    refine ihe.bind fun i hi => ihf.bind fun j hj =>
      Meets.mono (Quantity.merges_binary op) fun k hk => ?_
    rw [leaves, List.map_append]
    exact Metadata.Gathers.merge hk hi hj

/-- Whenever an expression has a value, its identifiers are those of its leaves, and its color and
its label are those of the first leaf that has one. -/
theorem metadata_eval {s : Settings} {e : IntervalExpr} {i : Interval} (h : e.eval s = .ok i) :
    (∀ id, id ∈ i.metadata.trackingIds ↔ ∃ leaf ∈ e.leaves, id ∈ leaf.metadata.trackingIds) ∧
      i.metadata.color = e.leaves.findSome? (fun leaf => leaf.metadata.color) ∧
      i.metadata.label =
        ((e.leaves.map fun leaf => leaf.metadata.label).find? fun l => !l.isEmpty).getD "" := by
  have hgathers := Ensures.iff_forall.mp (e.gathers_eval s) i h
  refine ⟨fun id => (hgathers.mem_trackingIds id).trans ?_, hgathers.color.trans ?_,
    hgathers.label.trans ?_⟩
  · simp only [List.mem_map, exists_exists_and_eq_and]
  · rw [List.findSome?_map]
    rfl
  · rw [List.map_map]
    rfl

/-- A scaled interval that is subtracted, from the left, from the reverse of another. -/
def tagged : IntervalExpr :=
  let unlabelled : Interval :=
    { value := .exact { exps := [0, 1] }, domain := .linear, metadata := { trackingIds := [4] } }
  let red : Interval :=
    { value := .exact { exps := [1] }, domain := .logarithmic
      metadata := { color := some "red", trackingIds := [1, 7] } }
  let fifth : Interval :=
    { value := .exact { exps := [-1, 1] }, domain := .logarithmic
      metadata := { color := some "blue", label := "fifth", trackingIds := [1, 3] } }
  .binary .lsub
    (.binary .mul (.leaf unlabelled) (.leaf red)) (.unary .neg (.leaf fifth))

/-- The color of the second leaf and the label of the third, though the operands are swapped. -/
theorem metadata_tagged :
    ∃ i, tagged.eval {} = .ok i ∧ i.metadata.color = some "red" ∧ i.metadata.label = "fifth" ∧
      ∀ id, id ∈ i.metadata.trackingIds ↔ id = 1 ∨ id = 3 ∨ id = 4 ∨ id = 7 := by
  have hok : (tagged.eval {}).map (fun _ => ()) = .ok () := by decide +kernel
  obtain ⟨i, hi, -⟩ := map_eq_ok.mp hok
  obtain ⟨hids, hcolor, hlabel⟩ := metadata_eval hi
  refine ⟨i, hi, hcolor, hlabel.trans (by decide +kernel), fun id => (hids id).trans ?_⟩
  simp [tagged, leaves]
  omega

end IntervalExpr

end Intonation
