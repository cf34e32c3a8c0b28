import BlockAffinity.Ingest.RawRow
import BlockAffinity.Profile

/-!
# BlockAffinity.Ingest.Occurrences

**Tables of occurrences**, one row for each token that was seen, and tables of disassembled
instructions, one row for each instruction, which are expanded into occurrences. Counting the
occurrences of a block by role and token gives its profile.
-/

namespace BlockAffinity.Ingest

variable {α : Type}

/-- The rows of a table with the columns for block, role and token. -/
def occurrenceRows (table : Csv.Table) : Except (Fault α) (List RawRow) := do
  let block ← requireColumn table blockColumn
  let role ← requireColumn table roleColumn
  let token ← requireColumn table tokenColumn
  return table.records.map fun row =>
    ⟨row.line, row.field? block, row.field? role, row.field? token⟩

/-- Whether a text is missing or blank. -/
def isMissing (text : Option String) : Bool := (text.map Text.isBlank).getD true

/-- The raw rows of one instruction. There is always one for the mnemonic; a row without a block
gives no others, so that it is reported once. Operands that are missing or blank give none. -/
def instructionRows (block mnemonic left right : Option Nat) (row : Csv.Row) : List RawRow :=
  let id := row.field? block
  let operand (role : Role) (column : Option Nat) : List RawRow :=
    let text := row.field? column
    if isMissing text then [] else [⟨row.line, id, some role.label, text⟩]
  ⟨row.line, id, some Role.instruction.label, row.field? mnemonic⟩
    :: if isMissing id then [] else operand .leftOperand left ++ operand .rightOperand right

/-- The rows of a table of instructions; only the columns for the block and the mnemonic are
required. -/
def disassemblyRows (table : Csv.Table) : Except (Fault α) (List RawRow) := do
  let block ← requireColumn table blockColumn
  let mnemonic ← requireColumn table Role.instruction.label
  let left := table.column? Role.leftOperand.label
  let right := table.column? Role.rightOperand.label
  return table.records.flatMap (instructionRows block mnemonic left right)

/-- Occurrence counts of one block. -/
abbrev Tally := PerRole (TokenMap Nat)

/-- Adds one occurrence. -/
def Tally.add (tally : Tally) (role : Role) (token : Token) : Tally :=
  PerRole.modify tally role fun counts => counts.alter token fun old => old.getD 0 + 1

/-- The occurrence counts of each block. -/
def tallies (observations : List Observation) : Roster Tally :=
  observations.foldl
    (fun r o => r.alter o.block fun old => Tally.add (old.getD (.replicate .empty)) o.role o.token)
    .empty

/-- The profiles of observed blocks. -/
def profilesOf [Scalar α] (observations : List Observation) : Profiles α :=
  (tallies observations).map (PerRole.map Distribution.ofCounts)

end BlockAffinity.Ingest
