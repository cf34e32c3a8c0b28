import BlockAffinity.ScoreMatrix.Validity
import BlockAffinity.Proofs.Number.Exact

/-!
# BlockAffinity.Proofs.ScoreMatrix.Validity

**What validity promises about single entries.** A valid matrix has an entry in every place: zero on
the diagonal (`diagonal_of_valid`), and off it a finite number that is not negative
(`entry_of_valid`). Building a dendrogram reads those above the diagonal only (`cell_of_valid`). In
exact arithmetic no entry at all is negative (`cell_nonneg_of_valid`).
-/

namespace BlockAffinity.ScoreMatrix

variable {α : Type} [Scalar α] {m : ScoreMatrix α}

open Scalar

theorem validate_eq_ok_iff : m.validate = .ok () ↔ m.defect? = none := by
  unfold validate
  cases m.defect? <;> simp

/-- **A matrix is valid** if no diagonal entry and no pair of entries has a defect. -/
theorem validate_eq_ok_iff_forall :
    m.validate = .ok () ↔ ∀ i < m.size, m.diagonalDefect? i = none ∧
      ∀ j, i < j → j < m.size → m.pairDefect? i j = none := by
  rw [validate_eq_ok_iff, defect?, List.findSome?_eq_none_iff]
  simp only [List.mem_range]
  refine forall₂_congr fun i _ => ?_
  rw [rowDefect?, Option.or_eq_none_iff, List.findSome?_eq_none_iff]
  refine and_congr_right fun _ => forall_congr' fun j => ?_
  rw [List.mem_range'_1]
  exact ⟨fun h hij hj => h (by omega), fun h hj => h (by omega) (by omega)⟩

/-- A pair of indices of a valid matrix has no defect. -/
theorem pairDefect?_of_valid (h : m.validate = .ok ()) {i j : Nat} (hij : i < j) (hj : j < m.size) :
    m.pairDefect? i j = none :=
  (validate_eq_ok_iff_forall.mp h i (Nat.lt_trans hij hj)).2 j hij hj

theorem entryDefect?_eq_none_iff {i j : Nat} {value : α} :
    entryDefect? i j value = none ↔ isFinite value = true ∧ lt value zero = false := by
  unfold entryDefect?
  cases isFinite value <;> cases lt value zero <;> simp

theorem pairDefect?_eq_none_iff {i j : Nat} :
    m.pairDefect? i j = none ↔ ∃ upper lower, m.cell? i j = some upper ∧ m.cell? j i = some lower ∧
      (isFinite upper = true ∧ lt upper zero = false) ∧
      (isFinite lower = true ∧ lt lower zero = false) ∧ isAsymmetric upper lower = false := by
  unfold pairDefect?
  cases m.cell? i j with
  | none => simp
  | some upper =>
      cases m.cell? j i with
      | none => simp
      | some lower =>
          cases isAsymmetric upper lower <;>
            simp [Option.or_eq_none_iff, entryDefect?_eq_none_iff]

theorem diagonalDefect?_eq_none_iff {i : Nat} :
    m.diagonalDefect? i = none ↔ ∃ value, m.cell? i i = some value ∧ eq value zero = true := by
  unfold diagonalDefect?
  cases m.cell? i i <;> simp

/-- A matrix that is not valid has a place where it is not. -/
theorem exists_of_validate_eq_error {fault : Fault α} (h : m.validate = .error fault) :
    ∃ i j defect, fault = .invalidMatrix i j defect := by
  have hentry {i j : Nat} {value : α} (h : entryDefect? i j value = some fault) :
      ∃ i j defect, fault = .invalidMatrix i j defect := by
    unfold entryDefect? at h
    split_ifs at h <;> exact ⟨_, _, _, (Option.some.inj h).symm⟩
  have hdefect : m.defect? = some fault := by
    unfold validate at h
    cases hdefect : m.defect? <;> simp_all
  obtain ⟨i, -, hrow⟩ := List.exists_of_findSome?_eq_some hdefect
  rcases Option.or_eq_some_iff.mp hrow with hdiagonal | ⟨-, hpairs⟩
  · unfold diagonalDefect? at hdiagonal
    split at hdiagonal
    · exact ⟨_, _, _, (Option.some.inj hdiagonal).symm⟩
    · split_ifs at hdiagonal
      exact ⟨_, _, _, (Option.some.inj hdiagonal).symm⟩
  · obtain ⟨j, -, hpair⟩ := List.exists_of_findSome?_eq_some hpairs
    unfold pairDefect? at hpair
    split at hpair
    · rcases Option.or_eq_some_iff.mp hpair with hupper | ⟨-, hrest⟩
      · exact hentry hupper
      · rcases Option.or_eq_some_iff.mp hrest with hlower | ⟨-, hasymmetric⟩
        · exact hentry hlower
        · split_ifs at hasymmetric
          exact ⟨_, _, _, (Option.some.inj hasymmetric).symm⟩
    · exact ⟨_, _, _, (Option.some.inj hpair).symm⟩
    · exact ⟨_, _, _, (Option.some.inj hpair).symm⟩

/-- The diagonal of a valid matrix is zero. -/
theorem diagonal_of_valid (h : m.validate = .ok ()) {i : Nat} (hi : i < m.size) :
    ∃ value, m.cell? i i = some value ∧ eq value zero = true :=
  diagonalDefect?_eq_none_iff.mp (validate_eq_ok_iff_forall.mp h i hi).1

/-- **Entries off the diagonal** of a valid matrix are there, finite and not negative. -/
theorem entry_of_valid (h : m.validate = .ok ()) {i j : Nat} (hi : i < m.size) (hj : j < m.size)
    (hij : i ≠ j) :
    ∃ value, m.cell? i j = some value ∧ isFinite value = true ∧ lt value zero = false := by
  rcases Nat.lt_or_gt_of_ne hij with hlt | hgt
  · obtain ⟨upper, -, hupper, -, hentry, -, -⟩ :=
      pairDefect?_eq_none_iff.mp (pairDefect?_of_valid h hlt hj)
    exact ⟨upper, hupper, hentry⟩
  · obtain ⟨-, lower, -, hlower, -, hentry, -⟩ :=
      pairDefect?_eq_none_iff.mp (pairDefect?_of_valid h hgt hi)
    exact ⟨lower, hlower, hentry⟩

/-- Entries above the diagonal of a valid matrix are finite and not negative. -/
theorem cell_of_valid (h : m.validate = .ok ()) {i j : Nat} (hij : i < j) (hj : j < m.size) :
    isFinite (m.cell i j) = true ∧ lt (m.cell i j) zero = false := by
  obtain ⟨value, hvalue, hentry⟩ := entry_of_valid h (Nat.lt_trans hij hj) hj (Nat.ne_of_lt hij)
  rwa [cell, hvalue, Option.getD_some]

section exact

variable {K : Type} [ExactField K] {m : ScoreMatrix K}

theorem cell_self_of_valid (hvalid : m.validate = .ok ()) {i : Nat} (hi : i < m.size) :
    m.cell i i = 0 := by
  obtain ⟨value, hvalue, hzero⟩ := diagonal_of_valid hvalid hi
  rw [cell, hvalue, Option.getD_some]
  exact of_decide_eq_true hzero

theorem cell_nonneg_of_valid (hvalid : m.validate = .ok ()) {i j : Nat} (hi : i < m.size)
    (hj : j < m.size) : 0 ≤ m.cell i j := by
  by_cases hij : i = j
  · rw [← hij, cell_self_of_valid hvalid hi]
  · obtain ⟨value, hvalue, -, hnonneg⟩ := entry_of_valid hvalid hi hj hij
    rw [cell, hvalue, Option.getD_some]
    exact not_lt.mp (of_decide_eq_false hnonneg)

end exact

/-- Four blocks with tied distances. -/
def fourBlocks : ScoreMatrix Float where
  ids := [⟨"a"⟩, ⟨"b"⟩, ⟨"c"⟩, ⟨"d"⟩]
  values := #[0, 2, 4, 4, 2, 0, 4, 4, 4, 4, 0, 2, 4, 4, 2, 0]

theorem fourBlocks_valid : fourBlocks.validate = .ok () := by
  refine validate_eq_ok_iff.mpr (Option.isNone_iff_eq_none.mp ?_)
  decide +kernel

end BlockAffinity.ScoreMatrix
