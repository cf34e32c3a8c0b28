import BlockAffinity.Scalar

/-!
# BlockAffinity.Statistics

**Mean and spread** of a list of numbers; neither exists for the empty list.
-/

namespace BlockAffinity.Statistics

variable {α : Type} [Scalar α]

open Scalar

/-- The arithmetic mean. -/
def mean (xs : List α) : Option α :=
  if xs.isEmpty then none else some (sum xs / ofNat xs.length)

/-- The standard deviation of the list as a whole population. -/
def deviation (xs : List α) : Option α :=
  (mean xs).map fun center =>
    sqrt (sum (xs.map fun x => (x - center) * (x - center)) / ofNat xs.length)

end BlockAffinity.Statistics
