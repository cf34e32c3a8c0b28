import BlockAffinity.ScoreMatrix.Basic

/-!
# BlockAffinity.ScoreMatrix.Validity

**Which matrices hold distances.** A distance matrix has a zero diagonal, finite entries that are
not negative, and is symmetric up to `1e-12` of the larger entry, or up to `1e-12` where both
entries are below one.

`defect?` looks for the first violation row by row, and within a row at the diagonal first and then
at the pairs to the right of it; both entries of a pair are taken before either is judged.
-/

namespace BlockAffinity.ScoreMatrix

variable {α : Type} [Scalar α]

open Scalar

/-- The defect of a diagonal entry. -/
def diagonalDefect? (m : ScoreMatrix α) (i : Nat) : Option (Fault α) :=
  match m.cell? i i with
  | none => some (.invalidMatrix i i .absent)
  | some value =>
      if eq value zero then none
      else some (.invalidMatrix i i (.diagonal (m.ids.getD i default) value))

/-- The defect of a single entry off the diagonal. -/
def entryDefect? (i j : Nat) (value : α) : Option (Fault α) :=
  if !isFinite value then some (.invalidMatrix i j (.nonFinite value))
  else if lt value zero then some (.invalidMatrix i j (.negative value))
  else none

/-- Whether two entries differ by more than the tolerance. -/
def isAsymmetric (upper lower : α) : Bool :=
  lt (slack * maximum (maximum (magnitude upper) (magnitude lower)) one) (magnitude (upper - lower))

/-- The defect of the entries `(i, j)` and `(j, i)`. -/
def pairDefect? (m : ScoreMatrix α) (i j : Nat) : Option (Fault α) :=
  match m.cell? i j, m.cell? j i with
  | some upper, some lower =>
      (entryDefect? i j upper).or <| (entryDefect? j i lower).or <|
        if isAsymmetric upper lower then
          some (.invalidMatrix i j
            (.asymmetric (m.ids.getD i default) (m.ids.getD j default) upper lower))
        else none
  | none, _ => some (.invalidMatrix i j .absent)
  | some _, none => some (.invalidMatrix j i .absent)

/-- The first defect of row `i` on and to the right of the diagonal, and of the entries on the other
side of the diagonal. -/
def rowDefect? (m : ScoreMatrix α) (i : Nat) : Option (Fault α) :=
  (m.diagonalDefect? i).or
    ((List.range' (i + 1) (m.size - (i + 1))).findSome? (m.pairDefect? i))

/-- The first defect of a matrix. -/
def defect? (m : ScoreMatrix α) : Option (Fault α) := (List.range m.size).findSome? m.rowDefect?

/-- Accepts the matrices of distances. -/
def validate (m : ScoreMatrix α) : Except (Fault α) Unit :=
  match m.defect? with
  | none => .ok ()
  | some fault => .error fault

end BlockAffinity.ScoreMatrix
