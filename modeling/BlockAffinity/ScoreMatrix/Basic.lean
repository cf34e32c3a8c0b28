import BlockAffinity.Fault
import BlockAffinity.PairTable

/-!
# BlockAffinity.ScoreMatrix.Basic

**Square matrices of scores between blocks.** The values stand row by row in one array. A matrix
that was read from a file may have fewer or more values than its blocks call for: `cell?` says
whether a cell is there, and values beyond the last row are never looked at.

The scores of unordered pairs are read from the upper triangle.
-/

namespace BlockAffinity

/-- Scores of every block against every block. -/
structure ScoreMatrix (α : Type) where
  ids : List BlockId
  values : Array α
  deriving Repr, DecidableEq

namespace ScoreMatrix

variable {α : Type}

/-- Number of blocks. -/
def size (m : ScoreMatrix α) : Nat := m.ids.length

/-- Whether there are no blocks. -/
def isEmpty (m : ScoreMatrix α) : Bool := m.ids.isEmpty

/-- As many values as the blocks call for. -/
def WellShaped (m : ScoreMatrix α) : Prop := m.values.size = m.size * m.size

/-- The value in row `i` and column `j`, if there is one. -/
def cell? (m : ScoreMatrix α) (i j : Nat) : Option α := m.values[i * m.size + j]?

/-- The place of a block among the blocks. -/
def indexOf? (m : ScoreMatrix α) (id : BlockId) : Option Nat := m.ids.findIdx? (· == id)

/-- The matrix with the given rows, which have to fit the blocks. -/
def ofRows (ids : List BlockId) (rows : List (List α)) : Except (Fault α) (ScoreMatrix α) :=
  if rows.length ≠ ids.length then
    .error (.invalidMatrix rows.length 0 (.rowCount ids.length rows.length))
  else
    match rows.findIdx? fun row => row.length ≠ ids.length with
    | some i =>
        let found := (rows.getD i []).length
        .error (.invalidMatrix i found (.columnCount ids.length found))
    | none => .ok ⟨ids, rows.flatten.toArray⟩

/-- The rows in order, if no value is missing. -/
def rows? (m : ScoreMatrix α) : Option (List (List α)) :=
  (List.range m.size).mapM fun i => (List.range m.size).mapM (m.cell? i)

variable [Scalar α]

open Scalar

/-- The value in row `i` and column `j`, zero where there is none. -/
def cell (m : ScoreMatrix α) (i j : Nat) : α := (m.cell? i j).getD zero

/-- The values of a row. -/
def row (m : ScoreMatrix α) (i : Nat) : List α := (List.range m.size).map (m.cell i)

/-- The rows in order. -/
def rows (m : ScoreMatrix α) : List (List α) := (List.range m.size).map m.row

/-- The symmetric matrix with a zero diagonal and the scores of a pair table. -/
def ofPairs (ids : List BlockId) (table : PairTable α) : ScoreMatrix α where
  ids := ids
  values := ((List.range ids.length).flatMap fun i =>
    (List.range ids.length).map fun j => if i = j then zero else table.get i j).toArray

/-- Each unordered pair of blocks once, with its score. -/
def pairs (m : ScoreMatrix α) : List (BlockId × BlockId × α) :=
  (pairIndices m.size).filterMap fun (i, j) => do
    let left ← m.ids[i]?
    let right ← m.ids[j]?
    return (left, right, m.cell i j)

/-- The upper triangle as a pair table. -/
def upper (m : ScoreMatrix α) : PairTable α := .ofFn m.size m.cell

end ScoreMatrix

end BlockAffinity
