/-!
# Domains

An interval lives in an algebraic domain, which decides what its operators mean.
-/

namespace Intonation

/-- The algebraic domain of a quantity: ratios add in the linear domain, compose in the
logarithmic one, and tuning maps are cologarithmic. -/
inductive Domain
  | linear
  | logarithmic
  | cologarithmic
  deriving DecidableEq, Repr

namespace Domain

/-- The word for a domain. -/
def name : Domain → String
  | linear => "linear"
  | logarithmic => "logarithmic"
  | cologarithmic => "cologarithmic"

/-- Reads the word for a domain. -/
def ofName? : String → Option Domain
  | "linear" => some linear
  | "logarithmic" => some logarithmic
  | "cologarithmic" => some cologarithmic
  | _ => none

@[simp] theorem ofName?_name (d : Domain) : ofName? d.name = some d := by
  cases d <;> rfl

end Domain

end Intonation
