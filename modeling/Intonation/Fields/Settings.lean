import Intonation.Fields.Document

/-!
# Settings from fields

Settings are built from the fields of a base and the fields that override them. Every field is
validated on its own, and all bad fields are reported together.

## Main definitions

* `Settings.override`: settings with some fields replaced
* `Settings.ofFields`: settings from defaults
-/

namespace Intonation.Settings

/-- The names of the fields of settings. -/
def fieldNames : List String := ["number_of_components", "absurd_exponent", "max_pow_denominator"]

/-- A size of the basis that fits the prime table. -/
def componentsOf? (d : Datum) : Option Nat :=
  d.toInteger?.bind fun n => if 1 ≤ n ∧ n ≤ maxComponents then some n.toNat else none

/-- A bound above a given number. -/
def boundOf? (above : Nat) (d : Datum) : Option Nat :=
  d.toInteger?.bind fun n => if (above : Int) < n then some n.toNat else none

/-- The number that a field overrides a base with, unless the field is bad. -/
def fieldOr? (fields : Fields) (name : String) (read : Datum → Option Nat) (base : Nat) :
    Option Nat :=
  match fields.find? name with
  | none => some base
  | some d => read d

/-- The names of fields whose data are bad. -/
def badNames (checks : List (String × Bool)) (fields : Fields) : List String :=
  (checks.filter fun (_, ok) => !ok).map Prod.fst ++
    (fields.map Prod.fst).filter fun name => !fieldNames.contains name

/-- Settings with some fields replaced. -/
def override (base : Settings) (fields : Fields) : Except Fault Settings :=
  let components :=
    fieldOr? fields "number_of_components" componentsOf? base.numberOfComponents
  let absurd := fieldOr? fields "absurd_exponent" (boundOf? 0) base.absurdExponent
  let denominator := fieldOr? fields "max_pow_denominator" (boundOf? 1) base.maxPowDenominator
  let bad := badNames
    [("number_of_components", components.isSome), ("absurd_exponent", absurd.isSome),
      ("max_pow_denominator", denominator.isSome)] fields
  match components, absurd, denominator, bad with
  | some numberOfComponents, some absurdExponent, some maxPowDenominator, [] =>
    .ok { numberOfComponents, absurdExponent, maxPowDenominator }
  | _, _, _, names => .error (.invalidFields (Fields.sortedNames names))

/-- Settings from defaults and fields. -/
def ofFields (fields : Fields) : Except Fault Settings := override {} fields

end Intonation.Settings
