import Mathlib.Data.List.Sort
import BlockAffinity.Proofs.Assignment

/-!
# BlockAffinity.Proofs.Numbering

**Labels in the order in which they first appear.** `Numbered n labels k` says that `labels` go on
where the labels up to `n` have been given: each is one of those given so far or the next new one,
and in the end the labels up to `k` have been given. Classes are numbered in this way
(`exists_numbered_numberClasses`). So the labels that appear are those from 1 to the number of
classes (`Numbered.labelSet_eq`), and none is more than one above the largest before it
(`Numbered.le_of_getElem?`).
-/

namespace BlockAffinity

/-- Labels that go on in order of first appearance. -/
inductive Numbered : (given : Nat) → (labels : List Nat) → (last : Nat) → Prop
  | nil {n : Nat} : Numbered n [] n
  /-- A label that has been given. -/
  | old {n label last : Nat} {rest : List Nat} (hpos : 0 < label) (hle : label ≤ n)
      (h : Numbered n rest last) : Numbered n (label :: rest) last
  /-- The next new label. -/
  | new {n last : Nat} {rest : List Nat} (h : Numbered (n + 1) rest last) :
      Numbered n ((n + 1) :: rest) last

/-- **Classes are numbered** in the order in which they first appear. -/
theorem exists_numbered_numberClasses (seen classes : List Nat) :
    ∃ last, Numbered seen.length (numberClasses seen classes) last := by
  induction classes generalizing seen with
  | nil => exact ⟨_, .nil⟩
  | cons c rest ih =>
      rw [numberClasses]
      cases hfind : seen.findIdx? (· == c) with
      | some i =>
          obtain ⟨hlt, -⟩ := List.findIdx?_eq_some_iff_findIdx_eq.mp hfind
          obtain ⟨last, hlast⟩ := ih seen
          exact ⟨last, .old (Nat.succ_pos i) hlt hlast⟩
      | none =>
          obtain ⟨last, hlast⟩ := ih (seen ++ [c])
          rw [List.length_append, List.length_singleton] at hlast
          exact ⟨last, .new hlast⟩

/-- A new start counts like one more element. -/
theorem foldr_max_succ_le (n : Nat) (xs : List Nat) :
    xs.foldr max (n + 1) ≤ max (n + 1) (xs.foldr max n) := by
  induction xs with
  | nil => exact le_max_left _ _
  | cons x xs ih =>
      rw [List.foldr_cons, List.foldr_cons]
      omega

namespace Numbered

variable {n last label : Nat} {labels : List Nat}

theorem le (h : Numbered n labels last) : n ≤ last := by
  induction h with
  | nil => exact Nat.le_refl _
  | old _ _ _ ih => exact ih
  | new _ ih => exact Nat.le_of_succ_le ih

/-- The labels lie between one and the last new one. -/
theorem of_mem (h : Numbered n labels last) (hmem : label ∈ labels) : 0 < label ∧ label ≤ last := by
  induction h with
  | nil => simp at hmem
  | old hpos hle h ih =>
      rcases List.mem_cons.mp hmem with rfl | hmem
      · exact ⟨hpos, hle.trans h.le⟩
      · exact ih hmem
  | new h ih =>
      rcases List.mem_cons.mp hmem with rfl | hmem
      · exact ⟨Nat.succ_pos _, h.le⟩
      · exact ih hmem

/-- No new label is left out. -/
theorem mem_of_lt (h : Numbered n labels last) (hlt : n < label) (hle : label ≤ last) :
    label ∈ labels := by
  induction h with
  | nil => omega
  | old _ _ _ ih => exact List.mem_cons_of_mem _ (ih hlt hle)
  | new _ ih =>
      rcases Nat.eq_or_lt_of_le hlt with rfl | hlt
      · exact List.mem_cons_self
      · exact List.mem_cons_of_mem _ (ih hlt hle)

/-- **The labels that appear** are those from 1 on, without a gap. -/
theorem labelSet_eq (h : Numbered 0 labels last) : labelSet labels = List.range' 1 last := by
  refine (pairwise_labelSet labels).eq_of_mem_iff List.pairwise_lt_range' fun label => ?_
  rw [mem_labelSet, List.mem_range'_1]
  constructor
  · intro hmem
    obtain ⟨hpos, hle⟩ := h.of_mem hmem
    omega
  · intro hbounds
    exact h.mem_of_lt (by omega) (by omega)

/-- **A label is no more than one above the largest one before it.** -/
theorem le_of_getElem? (h : Numbered n labels last) {i : Nat} (hi : labels[i]? = some label) :
    label ≤ (labels.take i).foldr max n + 1 := by
  induction h generalizing i with
  | nil => simp at hi
  | @old n _ _ _ _ hle _ ih =>
      cases i with
      | zero =>
          rw [List.getElem?_cons_zero, Option.some.injEq] at hi
          exact hi ▸ hle.trans (Nat.le_succ n)
      | succ i =>
          rw [List.take_succ_cons, List.foldr_cons]
          exact (ih hi).trans (Nat.succ_le_succ (le_max_right _ _))
  | @new n _ rest _ ih =>
      cases i with
      | zero =>
          rw [List.getElem?_cons_zero, Option.some.injEq] at hi
          exact hi.symm.le
      | succ i =>
          rw [List.take_succ_cons, List.foldr_cons]
          exact (ih hi).trans (Nat.succ_le_succ (foldr_max_succ_le n _))

end Numbered

end BlockAffinity
