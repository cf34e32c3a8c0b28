import BlockAffinity.Csv.Table

/-!
# BlockAffinity.Csv.Reader

**Reading comma-separated text.** The reader is an automaton that takes one character at a time,
so reading a concatenation is reading its parts one after the other.

Design points:

* A field that begins with a quote is taken up to the matching one; inside, two quotes in a row
  stand for one. Characters after the closing quote still belong to the field.
* A quote elsewhere in a field stands for itself.
* A line feed ends a row. A carriage return is dropped in front of a line feed and kept anywhere
  else, so the reader holds it back (`Mode.carriage`) until it has seen the next character; in the
  same way it holds back a quote inside a quoted field (`Mode.closing`).
* Rows whose fields are all blank are left out, but their lines count.
-/

namespace BlockAffinity.Csv

/-- Where the reader stands within a field. -/
inductive Mode
  /-- Outside quotes. -/
  | bare
  /-- Inside quotes. -/
  | quoted
  /-- After a quote inside quotes, which closes the field unless another quote follows. -/
  | closing
  /-- After a carriage return outside quotes, which is dropped if a line feed follows. -/
  | carriage
  deriving Repr, DecidableEq

/-- The state of the reader. Lists are held with their latest element first. -/
structure Reader where
  rows : List Row
  fields : List String
  field : List Char
  mode : Mode
  /-- The line of the next character. -/
  line : Nat
  /-- The line on which the current row began. -/
  start : Nat
  deriving Repr, DecidableEq

/-- A quoted field that the text does not close, with the line its row begins on. -/
structure Unterminated where
  line : Nat
  deriving Repr, DecidableEq

namespace Reader

/-- The reader before the first character. -/
def initial : Reader := ⟨[], [], [], .bare, 1, 1⟩

/-- Adds a character to the current field. -/
def push (r : Reader) (c : Char) : Reader := { r with field := c :: r.field }

/-- Ends the current field. -/
def endField (r : Reader) : Reader :=
  { r with fields := String.ofList r.field.reverse :: r.fields, field := [] }

/-- The current row, its current field included. -/
def row (r : Reader) : Row := ⟨r.start, r.endField.fields.reverse⟩

/-- The finished rows once the current one is ended. -/
def rowsWithCurrent (r : Reader) : List Row :=
  if r.row.isBlank then r.rows else r.row :: r.rows

/-- Ends the current row at a line feed. -/
def endRow (r : Reader) : Reader :=
  ⟨r.rowsWithCurrent, [], [], .bare, r.line + 1, r.line + 1⟩

/-- Takes a character outside quotes. -/
def stepBare (r : Reader) (c : Char) : Reader :=
  if c = '"' ∧ r.field = [] then { r with mode := .quoted }
  else if c = ',' then { r.endField with mode := .bare }
  else if c = '\r' then { r with mode := .carriage }
  else if c = '\n' then r.endRow
  else { r.push c with mode := .bare }

/-- Takes a character inside quotes. -/
def stepQuoted (r : Reader) (c : Char) : Reader :=
  if c = '"' then { r with mode := .closing }
  else if c = '\n' then { r.push c with line := r.line + 1 }
  else r.push c

/-- Takes one character. -/
def step (r : Reader) (c : Char) : Reader :=
  match r.mode with
  | .bare => r.stepBare c
  | .quoted => r.stepQuoted c
  | .closing => if c = '"' then { r.push '"' with mode := .quoted } else r.stepBare c
  | .carriage => if c = '\n' then r.endRow else (r.push '\r').stepBare c

/-- The state after a carriage return that nothing follows has been kept. -/
def settle (r : Reader) : Reader :=
  if r.mode = .carriage then { r.push '\r' with mode := .bare } else r

/-- The rows once the text has ended. A row that the end of the text cuts off counts if it has
begun. -/
def finish (r : Reader) : Except Unterminated (List Row) :=
  if r.mode = .quoted then .error ⟨r.start⟩
  else
    let s := r.settle
    .ok (if s.field = [] ∧ s.fields = [] then s.rows else s.rowsWithCurrent).reverse

end Reader

/-- The text after a byte order mark at its start. -/
def afterMark : List Char → List Char
  | [] => []
  | c :: rest => if c = '\ufeff' then rest else c :: rest

/-- The rows of a text that are not blank. -/
def readRows (cs : List Char) : Except Unterminated (List Row) :=
  ((afterMark cs).foldl Reader.step .initial).finish

/-- Reads a table whose header is the first row that is not blank. -/
def readTable (text : String) : Except Unterminated Table :=
  (readRows text.toList).map Table.ofRows

end BlockAffinity.Csv
