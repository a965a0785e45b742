/-!
# Metadata of intervals

Color, label and tracking identifiers ride along with arithmetic. Every binary operator merges
those of its operands.

## Main definitions

* `TrackingIds`: sets of identifiers in ascending order
* `Metadata`, `Metadata.infect`: metadata, and its merging
-/

namespace Intonation

/-- A set of identifiers, kept in strictly ascending order. -/
abbrev TrackingIds := List Int

namespace TrackingIds

/-- The set with one more identifier. -/
def insert (id : Int) : TrackingIds → TrackingIds
  | [] => [id]
  | first :: rest =>
    if id < first then id :: first :: rest
    else if id = first then first :: rest
    else first :: insert id rest

/-- The identifiers of either set. -/
def union (a b : TrackingIds) : TrackingIds := a.foldr insert b

/-- The set of the identifiers of a list. -/
def ofList (ids : List Int) : TrackingIds := ids.foldr insert []

theorem mem_insert {x id : Int} {ids : TrackingIds} : x ∈ insert id ids ↔ x = id ∨ x ∈ ids := by
  induction ids with
  | nil => simp [insert]
  | cons first rest ih =>
    unfold insert
    split
    · simp
    · split
      · next h => subst h; simp
      · simp only [List.mem_cons, ih]
        constructor <;> rintro (h | h | h) <;> simp [h]

theorem mem_union {x : Int} {a b : TrackingIds} : x ∈ union a b ↔ x ∈ a ∨ x ∈ b := by
  unfold union
  induction a with
  | nil => simp
  | cons id ids ih => simp [mem_insert, ih, or_assoc]

end TrackingIds

/-- The color, label and tracking identifiers of an interval. -/
structure Metadata where
  /-- The color as it was given, if any. -/
  color : Option String := none
  /-- The label, which may be empty. -/
  label : String := ""
  trackingIds : TrackingIds := []
  deriving DecidableEq, Repr

namespace Metadata

/-- A color as it is displayed, without percent signs. -/
def colorText (color : String) : String := String.ofList (color.toList.filter (· ≠ '%'))

/-- The first label unless it is empty. -/
def preferLabel (a b : String) : String := if a.isEmpty then b else a

/-- The metadata of a result: the first color and the first nonempty label win, and the
identifiers are merged. -/
def infect (a b : Metadata) : Metadata where
  color := a.color.or b.color
  label := preferLabel a.label b.label
  trackingIds := TrackingIds.union a.trackingIds b.trackingIds

/-- Metadata of a result whose color and label are taken from `a` before `b`. -/
def favor (result a b : Metadata) : Metadata :=
  { result with color := a.color.or b.color, label := preferLabel a.label b.label }

end Metadata

end Intonation
