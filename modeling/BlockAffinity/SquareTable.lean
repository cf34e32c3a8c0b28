import BlockAffinity.PairTable

/-!
# BlockAffinity.SquareTable

**Values of ordered pairs**, row by row in one array: the cell in row `i` and column `j` is at place
`i * size + j`.

The value of an unordered pair has two cells, one on each side of the diagonal. Writing it fills both
(`setPair`) and reading looks at one of them, so whether the two sides agree depends on what has been
written.
-/

namespace BlockAffinity

/-- A cell for every two indices below `size`. -/
structure SquareTable (α : Type) where
  size : Nat
  cells : Array α
  deriving Repr

namespace SquareTable

variable {α : Type}

/-- The value in row `i` and column `j`, if there is one. -/
def cell? (t : SquareTable α) (i j : Nat) : Option α := t.cells[i * t.size + j]?

/-- Enters a value on both sides of the diagonal. -/
def setPair (t : SquareTable α) (i j : Nat) (value : α) : SquareTable α :=
  { t with cells :=
      (t.cells.setIfInBounds (i * t.size + j) value).setIfInBounds (j * t.size + i) value }

/-- Enters the values of pairs one after the other. -/
def setPairs (t : SquareTable α) (f : Nat → Nat → α) (order : List (Nat × Nat)) : SquareTable α :=
  order.foldl (fun t pair => t.setPair pair.1 pair.2 (f pair.1 pair.2)) t

variable [Scalar α]

open Scalar

/-- The table of zeros. -/
def zeros (size : Nat) : SquareTable α := ⟨size, Array.replicate (size * size) zero⟩

/-- The value in row `i` and column `j`, zero where there is none. -/
def get (t : SquareTable α) (i j : Nat) : α := (t.cell? i j).getD zero

/-- The table of a function, which is asked about each pair once, the smaller index first. The
diagonal is zero. -/
def ofPairs (size : Nat) (f : Nat → Nat → α) : SquareTable α :=
  (zeros size).setPairs f (pairIndices size)

end SquareTable

end BlockAffinity
