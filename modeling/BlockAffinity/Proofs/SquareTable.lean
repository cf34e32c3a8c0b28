import BlockAffinity.SquareTable
import Mathlib.Data.List.Basic
import Mathlib.Order.Nat

/-!
# BlockAffinity.Proofs.SquareTable

**Writing into square tables.** In a table with all its cells (`Full`) different cells have different
places (`place_inj`), so:

* a value that is entered for a pair changes the two cells of the pair and no other
  (`Full.cell?_setPair`);
* the pairs of a list are found in their cells once they have been entered, in whatever order, and the
  other cells are as they were (`Full.cell?_setPairs`);
* a table in which the two sides of the diagonal agree (`Mirrored`) stays so, whatever is entered.
-/

namespace BlockAffinity

namespace SquareTable

/-! ### Places -/

/-- Different cells have different places in the array. -/
theorem place_inj {n i j k l : Nat} (hj : j < n) (hl : l < n) : i * n + j = k * n + l ↔ i = k ∧ j = l := by
  have hrow (x : Nat) {y : Nat} (hy : y < n) : (x * n + y) / n = x := by
    rw [Nat.mul_comm, Nat.mul_add_div (Nat.zero_lt_of_lt hy), Nat.div_eq_of_lt hy, Nat.add_zero]
  constructor
  · intro h
    obtain rfl : i = k := by rw [← hrow i hj, h, hrow k hl]
    exact ⟨rfl, Nat.add_left_cancel h⟩
  · intro h
    rw [h.1, h.2]

theorem place_lt {n i j : Nat} (hi : i < n) (hj : j < n) : i * n + j < n * n :=
  calc i * n + j < i * n + n := Nat.add_lt_add_left hj _
    _ = (i + 1) * n := (Nat.succ_mul i n).symm
    _ ≤ n * n := Nat.mul_le_mul_right n hi

variable {α : Type}

/-! ### Cells -/

/-- A table for `n` indices with all its cells. -/
structure Full (t : SquareTable α) (n : Nat) : Prop where
  size_eq : t.size = n
  cells_size : t.cells.size = n * n

section full

variable {t : SquareTable α} {n i j k l : Nat} {value : α}

theorem Full.setPair (h : t.Full n) : (t.setPair i j value).Full n :=
  ⟨h.size_eq, by simpa [SquareTable.setPair] using h.cells_size⟩

theorem Full.exists_cell? (h : t.Full n) (hi : i < n) (hj : j < n) :
    ∃ value, t.cell? i j = some value := by
  obtain ⟨rfl, hcells⟩ := h
  exact ⟨_, Array.getElem?_eq_getElem ((place_lt hi hj).trans_eq hcells.symm)⟩

/-- **A value that is entered** is found in its two cells, and the other cells are as they were. -/
theorem Full.cell?_setPair (h : t.Full n) (hi : i < n) (hj : j < n) (hl : l < n) :
    (t.setPair i j value).cell? k l =
      if (i = k ∧ j = l) ∨ (j = k ∧ i = l) then some value else t.cell? k l := by
  obtain ⟨rfl, hcells⟩ := h
  have hupper : i * t.size + j < t.cells.size := (place_lt hi hj).trans_eq hcells.symm
  have hlower : j * t.size + i < t.cells.size := (place_lt hj hi).trans_eq hcells.symm
  simp only [cell?, SquareTable.setPair, Array.getElem?_setIfInBounds, Array.size_setIfInBounds,
    place_inj hi hl, place_inj hj hl, if_pos hupper, if_pos hlower]
  by_cases hfirst : i = k ∧ j = l
  · rw [if_pos hfirst, ite_self, if_pos (.inl hfirst)]
  · simp only [hfirst, false_or, if_false]

end full

/-! ### Both sides of the diagonal -/

/-- A table with all its cells in which a cell and the one across the diagonal hold the same value. -/
structure Mirrored (t : SquareTable α) (n : Nat) : Prop extends t.Full n where
  cell?_comm : ∀ {i j}, i < n → j < n → t.cell? i j = t.cell? j i

theorem Mirrored.setPair {t : SquareTable α} {n i j : Nat} {value : α} (h : t.Mirrored n) (hi : i < n)
    (hj : j < n) : (t.setPair i j value).Mirrored n where
  toFull := h.toFull.setPair
  cell?_comm := by
    intro k l hk hl
    rw [h.toFull.cell?_setPair hi hj hl, h.toFull.cell?_setPair hi hj hk, h.cell?_comm hk hl]
    have hswap : (i = k ∧ j = l) ∨ (j = k ∧ i = l) ↔ (i = l ∧ j = k) ∨ (j = l ∧ i = k) := by omega
    simp only [hswap]

/-! ### Entering pair after pair -/

section setPairs

variable {t : SquareTable α} {n : Nat} {f g : Nat → Nat → α} {order : List (Nat × Nat)}

theorem setPairs_congr (h : ∀ pair ∈ order, f pair.1 pair.2 = g pair.1 pair.2) :
    t.setPairs f order = t.setPairs g order :=
  List.foldl_ext _ _ t fun t pair hpair => by rw [h pair hpair]

theorem Mirrored.setPairs (h : t.Mirrored n) (horder : ∀ pair ∈ order, pair.1 < n ∧ pair.2 < n) :
    (t.setPairs f order).Mirrored n := by
  induction order generalizing t with
  | nil => exact h
  | cons pair order ih =>
      obtain ⟨⟨hi, hj⟩, horder⟩ := List.forall_mem_cons.mp horder
      exact ih (h.setPair hi hj) horder

/-- **The pairs that are entered are found in their cells**, in the order in which they are listed or
in the other one, and the other cells are as they were. A pair that is listed twice has to have the
same value both times. -/
theorem Full.cell?_setPairs (h : t.Full n) (horder : ∀ pair ∈ order, pair.1 < n ∧ pair.2 < n)
    {i j : Nat} (hj : j < n) {value : α}
    (hvalue : ∀ pair ∈ order, pair = (i, j) ∨ pair = (j, i) → f pair.1 pair.2 = value) :
    (t.setPairs f order).cell? i j =
      if (i, j) ∈ order ∨ (j, i) ∈ order then some value else t.cell? i j := by
  induction order generalizing t with
  | nil => simp [SquareTable.setPairs]
  | cons pair order ih =>
      obtain ⟨⟨hk, hl⟩, horder⟩ := List.forall_mem_cons.mp horder
      obtain ⟨hfirst, hvalue⟩ := List.forall_mem_cons.mp hvalue
      rw [SquareTable.setPairs, List.foldl_cons]
      refine (ih h.setPair horder hvalue).trans ?_
      rw [h.cell?_setPair hk hl hj]
      by_cases hmem : (i, j) ∈ order ∨ (j, i) ∈ order
      · rw [if_pos hmem, if_pos (hmem.imp (List.mem_cons_of_mem _) (List.mem_cons_of_mem _))]
      · rw [if_neg hmem]
        by_cases heq : pair = (i, j) ∨ pair = (j, i)
        · have hcell : (pair.1 = i ∧ pair.2 = j) ∨ (pair.2 = i ∧ pair.1 = j) := by
            rcases heq with rfl | rfl <;> simp
          rw [if_pos hcell, hfirst heq, if_pos]
          rcases heq with rfl | rfl <;> simp
        · have hcell : ¬((pair.1 = i ∧ pair.2 = j) ∨ (pair.2 = i ∧ pair.1 = j)) := by
            simpa only [Prod.ext_iff, and_comm] using heq
          rw [if_neg hcell, if_neg]
          simp only [List.mem_cons, not_or] at heq hmem ⊢
          exact ⟨⟨Ne.symm heq.1, hmem.1⟩, Ne.symm heq.2, hmem.2⟩

end setPairs

/-! ### Entering a row -/

/-- Enters the values of an index and each of the listed ones. -/
def setRow (t : SquareTable α) (a : Nat) (f : Nat → α) (ks : List Nat) : SquareTable α :=
  t.setPairs (fun k _ => f k) (ks.map fun k => (k, a))

section setRow

variable {t : SquareTable α} {n a : Nat} {f g : Nat → α} {ks : List Nat}

theorem setRow_congr (h : ∀ k ∈ ks, f k = g k) : t.setRow a f ks = t.setRow a g ks :=
  setPairs_congr fun pair hpair => by
    obtain ⟨k, hk, rfl⟩ := List.mem_map.mp hpair
    exact h k hk

theorem Mirrored.setRow (h : t.Mirrored n) (ha : a < n) (hks : ∀ k ∈ ks, k < n) :
    (t.setRow a f ks).Mirrored n :=
  h.setPairs fun pair hpair => by
    obtain ⟨k, hk, rfl⟩ := List.mem_map.mp hpair
    exact ⟨hks k hk, ha⟩

end setRow

/-! ### Reading -/

variable [Scalar α]

open Scalar

section get

variable {t : SquareTable α} {n i j : Nat}

theorem Full.getElem?_cells (h : t.Full n) (hi : i < n) (hj : j < n) :
    t.cells[i * n + j]? = some (t.get i j) := by
  obtain ⟨value, hvalue⟩ := h.exists_cell? hi hj
  rw [get, hvalue, Option.getD_some, ← hvalue, cell?, h.size_eq]

/-- Other cells keep their values. -/
theorem Full.get_setPair_of_ne (h : t.Full n) {k l : Nat} {value : α} (hi : i < n) (hj : j < n)
    (hl : l < n) (hne : ¬((i = k ∧ j = l) ∨ (j = k ∧ i = l))) :
    (t.setPair i j value).get k l = t.get k l := by
  rw [get, h.cell?_setPair hi hj hl, if_neg hne, get]

theorem Mirrored.get_comm (h : t.Mirrored n) (hi : i < n) (hj : j < n) : t.get i j = t.get j i := by
  rw [get, h.cell?_comm hi hj, get]

end get

theorem mirrored_zeros (n : Nat) : (zeros n : SquareTable α).Mirrored n where
  size_eq := rfl
  cells_size := by simp [zeros]
  cell?_comm := by
    intro i j hi hj
    simp only [cell?, zeros, Array.getElem?_replicate, if_pos (place_lt hi hj), if_pos (place_lt hj hi)]

theorem cell?_zeros {n i j : Nat} (hi : i < n) (hj : j < n) :
    (zeros n : SquareTable α).cell? i j = some zero := by
  simp only [cell?, zeros, Array.getElem?_replicate, if_pos (place_lt hi hj)]

/-! ### The pairs in any order -/

section ofPairs

variable {n : Nat} {f : Nat → Nat → α} {order : List (Nat × Nat)}

theorem lt_of_mem_pairIndices {pair : Nat × Nat} (h : pair ∈ pairIndices n) : pair.1 < n ∧ pair.2 < n :=
  have ⟨hij, hj⟩ := mem_pairIndices.mp h
  ⟨hij.trans hj, hj⟩

theorem mirrored_ofPairs (n : Nat) (f : Nat → Nat → α) : (ofPairs n f).Mirrored n :=
  (mirrored_zeros n).setPairs fun _ => lt_of_mem_pairIndices

/-- **A table of zeros into which every pair has been entered** holds the value of a pair on both sides
of a diagonal of zeros, in whatever order the pairs have come. -/
theorem cell?_setPairs_zeros (horder : ∀ pair, pair ∈ order ↔ pair ∈ pairIndices n) {i j : Nat}
    (hi : i < n) (hj : j < n) :
    ((zeros n).setPairs f order).cell? i j =
      some (if i = j then zero else f (min i j) (max i j)) := by
  have hlt : ∀ pair ∈ order, pair.1 < n ∧ pair.2 < n := fun pair hpair =>
    lt_of_mem_pairIndices ((horder pair).mp hpair)
  -- a pair is listed with the smaller index first
  have hvalue : ∀ pair ∈ order, pair = (i, j) ∨ pair = (j, i) →
      f pair.1 pair.2 = f (min i j) (max i j) := by
    intro pair hpair heq
    have hpair : pair.1 < pair.2 := (mem_pairIndices.mp ((horder pair).mp hpair)).1
    rcases heq with rfl | rfl
    · rw [Nat.min_eq_left hpair.le, Nat.max_eq_right hpair.le]
    · rw [Nat.min_eq_right hpair.le, Nat.max_eq_left hpair.le]
  rw [(mirrored_zeros n).toFull.cell?_setPairs hlt hj hvalue, cell?_zeros hi hj]
  simp only [horder, mem_pairIndices]
  by_cases hij : i = j
  · rw [if_pos hij, if_neg (by omega)]
  · rw [if_neg hij, if_pos (by omega)]

theorem get_setPairs_zeros (horder : ∀ pair, pair ∈ order ↔ pair ∈ pairIndices n) {i j : Nat}
    (hi : i < n) (hj : j < n) (hij : i ≠ j) :
    ((zeros n).setPairs f order).get i j = f (min i j) (max i j) := by
  rw [get, cell?_setPairs_zeros horder hi hj, if_neg hij, Option.getD_some]

theorem get_ofPairs {i j : Nat} (hi : i < n) (hj : j < n) (hij : i ≠ j) :
    (ofPairs n f).get i j = f (min i j) (max i j) :=
  get_setPairs_zeros (fun _ => Iff.rfl) hi hj hij

end ofPairs

/-! ### Reading after a row has been written -/

/-- **Writing a row** gives the pairs of `a` with the listed indices new values. All others keep
theirs. -/
theorem Full.get_setRow {t : SquareTable α} {n a : Nat} {f : Nat → α} {ks : List Nat} (h : t.Full n)
    (ha : a < n) (hks : ∀ k ∈ ks, k < n ∧ k ≠ a) {i j : Nat} (hj : j < n) :
    (t.setRow a f ks).get i j =
      if i = a ∧ j ∈ ks then f j else if j = a ∧ i ∈ ks then f i else t.get i j := by
  have hlt : ∀ pair ∈ ks.map fun k => (k, a), pair.1 < n ∧ pair.2 < n := by
    intro pair hpair
    obtain ⟨k, hk, rfl⟩ := List.mem_map.mp hpair
    exact ⟨(hks k hk).1, ha⟩
  have hmem (k l : Nat) : (k, l) ∈ (ks.map fun k => (k, a)) ↔ l = a ∧ k ∈ ks := by
    simp [and_comm, eq_comm]
  have hvalue : ∀ pair ∈ ks.map fun k => (k, a), pair = (i, j) ∨ pair = (j, i) →
      f pair.1 = if i = a then f j else f i := by
    intro pair hpair heq
    obtain ⟨k, hk, rfl⟩ := List.mem_map.mp hpair
    have hka := (hks k hk).2
    rcases heq with heq | heq
    · obtain ⟨rfl, rfl⟩ := Prod.mk.inj heq
      rw [if_neg hka]
    · obtain ⟨rfl, rfl⟩ := Prod.mk.inj heq
      rw [if_pos rfl]
  rw [get, setRow, h.cell?_setPairs hlt hj hvalue]
  simp only [hmem]
  by_cases hia : i = a ∧ j ∈ ks
  · rw [if_pos (.inr hia), if_pos hia, if_pos hia.1, Option.getD_some]
  · rw [if_neg hia]
    by_cases hja : j = a ∧ i ∈ ks
    · rw [if_pos (.inl hja), if_pos hja, if_neg (hks i hja.2).2, Option.getD_some]
    · rw [if_neg (not_or.mpr ⟨hja, hia⟩), if_neg hja, get]

end SquareTable

end BlockAffinity
