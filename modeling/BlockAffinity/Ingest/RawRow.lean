import BlockAffinity.Csv.Table
import BlockAffinity.Fault

/-!
# BlockAffinity.Ingest.RawRow

**Rows before they are checked.** A raw row holds the texts of one observation as far as the table
has them. Checking asks for the block, the role and the token, in this order, and then for a text
that names a role; texts count without the blanks around them.

What happens to a row that does not pass is the policy's choice: it is skipped and counted, or it
ends the reading.
-/

namespace BlockAffinity.Ingest

/-- The column that names the block. -/
def blockColumn : String := "Block_ID"

/-- The column that names the role of a token. -/
def roleColumn : String := "Type"

/-- The column that holds the token. -/
def tokenColumn : String := "Assembly"

/-- The column that holds the weight of a token. -/
def probabilityColumn : String := "Probability"

/-- The texts of one observation. -/
structure RawRow where
  line : Nat
  block : Option String
  role : Option String
  token : Option String
  deriving Repr, DecidableEq, Inhabited

variable {α : Type}

/-- A text that must be there and not blank, without the blanks around it. -/
def required (line : Nat) (text : Option String) (column : String) : Except (Fault α) String :=
  let value := Text.trim (text.getD "")
  if value.isEmpty then .error (.malformedRecord line (.missingField column)) else .ok value

/-- The observation that a raw row stands for. -/
def RawRow.check (row : RawRow) : Except (Fault α) Observation := do
  let block ← required row.line row.block blockColumn
  let roleText ← required row.line row.role roleColumn
  let token ← required row.line row.token tokenColumn
  match Role.ofText? roleText with
  | some role => return ⟨⟨block⟩, role, token⟩
  | none => .error (.malformedRecord row.line (.unknownRole roleText))

/-- What happens to a malformed row. -/
inductive Policy
  | skip
  | abort
  deriving Repr, DecidableEq, Inhabited

/-- The rows that pass, with the number of those that were skipped. -/
structure Accepted (β : Type) where
  rows : List β
  skipped : Nat
  deriving Repr

/-- Checks rows in order. -/
def acceptRows {β γ : Type} (policy : Policy) (check : β → Except (Fault α) γ) :
    List β → Except (Fault α) (Accepted γ)
  | [] => .ok ⟨[], 0⟩
  | row :: rest =>
      match check row with
      | .ok value => (acceptRows policy check rest).map fun a => { a with rows := value :: a.rows }
      | .error fault =>
          if fault.isRecoverable && policy == .skip then
            (acceptRows policy check rest).map fun a => { a with skipped := a.skipped + 1 }
          else .error fault

/-- The column of a table that must have it. -/
def requireColumn (table : Csv.Table) (name : String) : Except (Fault α) Nat :=
  match table.column? name with
  | some index => .ok index
  | none => .error (.malformedRecord 1 (.missingColumn name table.headers))

end BlockAffinity.Ingest
