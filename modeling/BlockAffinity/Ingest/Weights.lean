import BlockAffinity.Ingest.Occurrences

/-!
# BlockAffinity.Ingest.Weights

**Tables of probabilities**: occurrence tables with a weight in each row. Weights are finite and
not negative; those of one block and role are divided by their sum. Groups that sum to zero are
dropped, and so are blocks that are left without any group.
-/

namespace BlockAffinity.Ingest

/-- An observation with its weight. -/
structure Weighted (α : Type) where
  observation : Observation
  weight : α
  deriving Repr

variable {α : Type} [Scalar α]

open Scalar

/-- Reads the weight of a row. -/
def checkWeight [ScalarText α] (line : Nat) (text : Option String) : Except (Fault α) α :=
  let trimmed := Text.trim (text.getD "")
  match ScalarText.read trimmed with
  | .error _ => .error (.malformedRecord line (.unreadableProbability probabilityColumn trimmed))
  | .ok weight =>
      if !isFinite weight || lt weight zero then
        .error (.malformedRecord line (.unusableProbability probabilityColumn weight))
      else .ok weight

/-- Checks a raw row together with the text of its weight. -/
def checkWeighted [ScalarText α] (row : RawRow × Option String) : Except (Fault α) (Weighted α) := do
  let observation ← row.1.check
  let weight ← checkWeight row.1.line row.2
  return ⟨observation, weight⟩

/-- The accepted rows of a table with a column for the probability. -/
def weightedRows [ScalarText α] (table : Csv.Table) (policy : Policy) :
    Except (Fault α) (Accepted (Weighted α)) := do
  let column ← requireColumn table probabilityColumn
  let rows ← occurrenceRows table
  let texts := table.records.map fun row => row.field? column
  acceptRows policy checkWeighted (rows.zip texts)

/-- The weights of each block by role, in the order of the rows. -/
def weightGroups (rows : List (Weighted α)) : Roster (PerRole (List (Token × α))) :=
  rows.foldl
    (fun r row =>
      r.alter row.observation.block fun old =>
        (old.getD (.replicate [])).modify row.observation.role
          (· ++ [(row.observation.token, row.weight)]))
    .empty

/-- The profiles of weighted observations. -/
def profilesOfWeights (rows : List (Weighted α)) : Profiles α :=
  (weightGroups rows).filterMap fun _ groups =>
    let profile : Profile α := groups.map Distribution.ofWeights
    if profile.isEmpty then none else some profile

end BlockAffinity.Ingest
