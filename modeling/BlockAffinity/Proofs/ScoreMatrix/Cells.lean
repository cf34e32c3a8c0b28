import BlockAffinity.Proofs.Lists
import BlockAffinity.Proofs.SquareTable
import BlockAffinity.ScoreMatrix.Basic
import Mathlib.Data.List.GetD

/-!
# BlockAffinity.Proofs.ScoreMatrix.Cells

**Matrices cell by cell.** A square matrix is a table with all its cells (`WellShaped.full_table`), and
its ids and its cells tell it (`ext_cell?`). There are three ways to make one:

* from a function that gives the cells (`tabulate`);
* from rows that fit the blocks (`ofRows_eq_ok_iff`);
* from another matrix, by choosing blocks in some order (`select`). All of them in another order are a
  choice like any other (`reorder`).
-/

namespace BlockAffinity.ScoreMatrix

variable {α : Type}

/-! ### Cells -/

/-- The values of a matrix as a table. -/
def table (m : ScoreMatrix α) : SquareTable α := ⟨m.size, m.values⟩

section

variable {m m' : ScoreMatrix α} {i j : Nat}

theorem cell?_table : m.table.cell? i j = m.cell? i j := rfl

theorem WellShaped.full_table (h : m.WellShaped) : m.table.Full m.size := ⟨rfl, h⟩

theorem cell?_of_wellShaped (h : m.WellShaped) (hi : i < m.size) (hj : j < m.size) :
    ∃ value, m.cell? i j = some value :=
  h.full_table.exists_cell? hi hj

theorem cell?_eq_some_cell [Scalar α] (h : m.WellShaped) (hi : i < m.size) (hj : j < m.size) :
    m.cell? i j = some (m.cell i j) := by
  obtain ⟨value, hvalue⟩ := cell?_of_wellShaped h hi hj
  rw [cell, hvalue, Option.getD_some]

/-- The cells tell a matrix. -/
theorem ext_cell? (hids : m.ids = m'.ids) (h : m.WellShaped) (h' : m'.WellShaped)
    (hcell : ∀ i < m.size, ∀ j < m.size, m.cell? i j = m'.cell? i j) : m = m' := by
  have hsize : m.size = m'.size := congrArg List.length hids
  have hvalues : m.values = m'.values := by
    refine Array.ext_getElem? fun p => ?_
    by_cases hp : p < m.size * m.size
    · have hpos : 0 < m.size := Nat.pos_of_mul_pos_left (Nat.zero_lt_of_lt hp)
      have hplace : p / m.size * m.size + p % m.size = p := Nat.div_add_mod' p m.size
      have heq := hcell (p / m.size) (Nat.div_lt_of_lt_mul hp) (p % m.size) (Nat.mod_lt p hpos)
      rwa [cell?, cell?, ← hsize, hplace] at heq
    · rw [Array.getElem?_eq_none (h.le.trans (Nat.le_of_not_lt hp)),
        Array.getElem?_eq_none (h'.le.trans (hsize ▸ Nat.le_of_not_lt hp))]
  cases m
  cases m'
  simp only at hids hvalues
  rw [hids, hvalues]

end

/-! ### Matrices of functions -/

/-- The matrix whose cells are the values of a function. -/
def tabulate (ids : List BlockId) (f : Nat → Nat → α) : ScoreMatrix α where
  ids := ids
  values := ((List.range ids.length).flatMap fun i => (List.range ids.length).map (f i)).toArray

section

variable {ids : List BlockId} {i j : Nat}

theorem wellShaped_tabulate (ids : List BlockId) (f : Nat → Nat → α) : (tabulate ids f).WellShaped := by
  simp [WellShaped, tabulate, size, List.length_flatMap]

theorem cell?_tabulate (f : Nat → Nat → α) (hi : i < ids.length) (hj : j < ids.length) :
    (tabulate ids f).cell? i j = some (f i j) := by
  simp only [cell?, tabulate, size, List.getElem?_toArray]
  rw [getElem?_flatMap_const hj (by simp)]
  simp [hi, hj]

theorem cell_tabulate [Scalar α] (f : Nat → Nat → α) (hi : i < ids.length) (hj : j < ids.length) :
    (tabulate ids f).cell i j = f i j := by
  rw [cell, cell?_tabulate f hi hj, Option.getD_some]

end

/-! ### Matrices of rows -/

section

variable {ids : List BlockId} {rows : List (List α)} {m : ScoreMatrix α}

/-- Rows make a matrix if there are as many of them as blocks, each with as many values. -/
theorem ofRows_eq_ok_iff :
    ofRows ids rows = .ok m ↔ rows.length = ids.length ∧ (∀ row ∈ rows, row.length = ids.length) ∧
      m = ⟨ids, rows.flatten.toArray⟩ := by
  have hfit : (∀ row ∈ rows, row.length = ids.length) ↔
      (rows.findIdx? fun row => row.length ≠ ids.length) = none := by
    simp [List.findIdx?_eq_none_iff]
  rw [ofRows, hfit]
  by_cases hcount : rows.length = ids.length
  · rw [if_neg (not_not.mpr hcount)]
    cases rows.findIdx? fun row => row.length ≠ ids.length with
    | none => simp [hcount, eq_comm]
    | some i => simp
  · simp [hcount]

/-- **A matrix made of rows** is square. -/
theorem wellShaped_of_ofRows (h : ofRows ids rows = .ok m) : m.WellShaped := by
  obtain ⟨hcount, hfit, rfl⟩ := ofRows_eq_ok_iff.mp h
  have hlength : rows.map List.length = List.replicate ids.length ids.length := by
    rw [List.eq_replicate_iff, List.length_map, hcount]
    simpa using hfit
  rw [WellShaped, List.size_toArray, List.length_flatten, hlength, List.sum_replicate_nat]
  rfl

/-- Its cells are the values of the rows. -/
theorem cell?_of_ofRows (h : ofRows ids rows = .ok m) {j : Nat} (hj : j < ids.length) (i : Nat) :
    m.cell? i j = rows[i]?.bind fun row => row[j]? := by
  obtain ⟨-, hfit, rfl⟩ := ofRows_eq_ok_iff.mp h
  rw [cell?, List.getElem?_toArray, ← List.flatMap_id, size]
  exact getElem?_flatMap_const hj hfit i

theorem cell_of_ofRows [Scalar α] (h : ofRows ids rows = .ok m) {j : Nat} (hj : j < ids.length)
    (i : Nat) : m.cell i j = (rows.getD i []).getD j Scalar.zero := by
  rw [cell, cell?_of_ofRows h hj, List.getD_eq_getElem?_getD, List.getD_eq_getElem?_getD]
  cases rows[i]? <;> rfl

end

/-! ### Blocks of a matrix in some order -/

variable [Scalar α]

/-- The matrix with rows for columns. -/
def transpose (m : ScoreMatrix α) : ScoreMatrix α := tabulate m.ids fun i j => m.cell j i

/-- The blocks at some places, in the order of these places, with their rows and columns. -/
def select (m : ScoreMatrix α) (places : List Nat) : ScoreMatrix α :=
  tabulate (places.map fun i => m.ids.getD i default) fun i j =>
    m.cell (places.getD i 0) (places.getD j 0)

/-- The matrix whose block at place `i` is the block at place `p i`. -/
def reorder (m : ScoreMatrix α) (p : Nat → Nat) : ScoreMatrix α :=
  m.select ((List.range m.size).map p)

section

variable {m : ScoreMatrix α} {places : List Nat} {p : Nat → Nat} {i j : Nat}

@[simp] theorem size_select (m : ScoreMatrix α) (places : List Nat) :
    (m.select places).size = places.length := by
  simp [select, tabulate, size]

theorem wellShaped_select (m : ScoreMatrix α) (places : List Nat) : (m.select places).WellShaped :=
  wellShaped_tabulate _ _

theorem cell_select (hi : i < places.length) (hj : j < places.length) :
    (m.select places).cell i j = m.cell places[i] places[j] := by
  rw [select, cell_tabulate _ (by simpa using hi) (by simpa using hj), List.getD_eq_getElem _ _ hi,
    List.getD_eq_getElem _ _ hj]

theorem getElem?_ids_select (hi : i < places.length) (hlt : places[i] < m.size) :
    (m.select places).ids[i]? = m.ids[places[i]]? := by
  have hlt : places[i] < m.ids.length := hlt
  simp [select, tabulate, hi, hlt]

/-- Different places give different blocks, if no id is repeated. -/
theorem nodup_ids_select (hplaces : places.Nodup) (hlt : ∀ i ∈ places, i < m.size)
    (hids : m.ids.Nodup) : (m.select places).ids.Nodup := by
  refine List.Nodup.map_on (fun i hi j hj heq => ?_) hplaces
  rw [List.getD_eq_getElem _ _ (hlt i hi), List.getD_eq_getElem _ _ (hlt j hj)] at heq
  exact hids.getElem_inj_iff.mp heq

@[simp] theorem size_reorder : (m.reorder p).size = m.size := by simp [reorder]

theorem cell_reorder (hi : i < m.size) (hj : j < m.size) :
    (m.reorder p).cell i j = m.cell (p i) (p j) := by
  rw [reorder, cell_select (by simpa using hi) (by simpa using hj)]
  simp

theorem getElem?_ids_reorder (hi : i < m.size) (hp : p i < m.size) :
    (m.reorder p).ids[i]? = m.ids[p i]? := by
  rw [reorder, getElem?_ids_select (by simpa using hi) (by simpa using hp)]
  simp

theorem nodup_ids_reorder (hp : Function.Injective p) (hlt : ∀ i < m.size, p i < m.size)
    (hids : m.ids.Nodup) : (m.reorder p).ids.Nodup :=
  nodup_ids_select (List.nodup_range.map hp) (by simpa using hlt) hids

end

end BlockAffinity.ScoreMatrix
