import BlockAffinity.Scalar

/-!
# BlockAffinity.PairTable

**Values of unordered pairs.** A pair table holds one value for each two different indices below
its size, so what it gives for `(i, j)` and for `(j, i)` is the same cell. `pairIndices` lists the
pairs, the smaller index first, in lexicographic order.
-/

namespace BlockAffinity

/-- The pairs `(i, j)` with `i < j < n`, in lexicographic order. -/
def pairIndices (n : Nat) : List (Nat × Nat) :=
  (List.range n).flatMap fun i => (List.range' (i + 1) (n - (i + 1))).map fun j => (i, j)

theorem mem_pairIndices {n i j : Nat} : (i, j) ∈ pairIndices n ↔ i < j ∧ j < n := by
  simp only [pairIndices, List.mem_flatMap, List.mem_range, List.mem_map, List.mem_range'_1,
    Prod.mk.injEq]
  constructor
  · rintro ⟨a, ha, b, hb, rfl, rfl⟩
    omega
  · rintro ⟨h1, h2⟩
    exact ⟨i, by omega, j, by omega, rfl, rfl⟩

/-- A value for each two different indices below `size`. -/
structure PairTable (α : Type) where
  size : Nat
  cells : Array α
  deriving Repr

namespace PairTable

/-- The cell that holds the value of a pair. -/
def position (size i j : Nat) : Nat := min i j * size + max i j

theorem position_comm (size i j : Nat) : position size i j = position size j i := by
  simp [position, Nat.min_comm i j, Nat.max_comm i j]

theorem position_lt {size i j : Nat} (hi : i < size) (hj : j < size) :
    position size i j < size * size := by
  have h1 : min i j + 1 ≤ size := by omega
  have h2 : (min i j + 1) * size ≤ size * size := Nat.mul_le_mul_right size h1
  have h3 : max i j < size := by omega
  simp only [position, Nat.add_mul] at *
  omega

variable {α : Type} [Scalar α]

open Scalar

/-- The value of a pair, zero outside the table. -/
def get (t : PairTable α) (i j : Nat) : α := t.cells.getD (position t.size i j) zero

/-- The table of a function, which is asked about each pair once, the smaller index first. -/
def ofFn (size : Nat) (f : Nat → Nat → α) : PairTable α where
  size := size
  cells := ((List.range (size * size)).map fun k =>
    if k / size < k % size then f (k / size) (k % size) else zero).toArray

/-- The values in the order of `pairIndices`. -/
def toList (t : PairTable α) : List α := (pairIndices t.size).map fun (i, j) => t.get i j

theorem get_comm (t : PairTable α) (i j : Nat) : t.get i j = t.get j i := by
  rw [get, get, position_comm]

/-- A table of a function gives the function's values. -/
theorem get_ofFn {size i j : Nat} (f : Nat → Nat → α) (hij : i < j) (hj : j < size) :
    (ofFn size f).get i j = f i j := by
  have hi : i < size := by omega
  have hlt : position size i j < size * size := position_lt hi hj
  have hpos : position size i j = i * size + j := by
    simp [position, Nat.min_eq_left (Nat.le_of_lt hij), Nat.max_eq_right (Nat.le_of_lt hij)]
  have hdiv : position size i j / size = i := by
    rw [hpos, Nat.mul_comm, Nat.mul_add_div (by omega), Nat.div_eq_of_lt hj, Nat.add_zero]
  have hmod : position size i j % size = j := by
    rw [hpos, Nat.mul_comm, Nat.mul_add_mod, Nat.mod_eq_of_lt hj]
  simp [get, ofFn, hlt, hdiv, hmod, hij]

end PairTable

end BlockAffinity
