import BlockAffinity.Text.Blank
import BlockAffinity.Text.Case

/-!
# BlockAffinity.Csv.Table

**Tables of text fields**: a header and rows that remember the line they begin on. Columns are
found by name, without regard to the case of ASCII letters or to blanks around the name.
-/

namespace BlockAffinity.Csv

/-- A row of a table. -/
structure Row where
  /-- The line the row begins on; the first line of a text is line 1. -/
  line : Nat
  fields : List String
  deriving Repr, DecidableEq, Inhabited

/-- A header and the rows below it. -/
structure Table where
  headers : List String
  records : List Row
  deriving Repr, DecidableEq, Inhabited

/-- A row all of whose fields are blank. -/
def Row.isBlank (row : Row) : Bool := row.fields.all Text.isBlank

/-- The field at a column, unless the row is too short or there is no such column. -/
def Row.field? (row : Row) (column : Option Nat) : Option String :=
  column.bind fun index => row.fields[index]?

/-- Whether a header names a column. -/
def namesColumn (name header : String) : Bool :=
  Text.sameIgnoringAsciiCase (Text.trim header) (Text.trim name)

/-- The index of the first column with this name. -/
def Table.column? (table : Table) (name : String) : Option Nat :=
  table.headers.findIdx? (namesColumn name)

/-- The table whose header is the first of the rows; no rows make the empty table. -/
def Table.ofRows : List Row → Table
  | [] => ⟨[], []⟩
  | header :: rows => ⟨header.fields, rows⟩

end BlockAffinity.Csv
