import Mathlib
import BlockAffinity.Proofs.Linkage.Between
import BlockAffinity.Proofs.ScoreMatrix.Pairs

/-!
# BlockAffinity.Proofs.ScoreMatrix.Reordering

**Matrices with their blocks in another order.** Rows, columns and ids are moved by the same map
(`ScoreMatrix.reorder`). In exact arithmetic validity says the same of every place
(`validate_eq_ok_iff_cells`), so whatever blocks are chosen from a valid matrix make a valid one
(`select_valid`), and if all of them are put in another order nothing else becomes valid
(`valid_of_reorder`). The distance of two clusters of an exactly symmetric matrix is that of their
images in the old one (`between_reorder`).
-/

namespace BlockAffinity

open Scalar

namespace ScoreMatrix

/-! ### Exact matrices -/

variable {K : Type} [ExactField K] {m : ScoreMatrix K} {p : Nat → Nat}

theorem isAsymmetric_comm (upper lower : K) : isAsymmetric upper lower = isAsymmetric lower upper := by
  have hmagnitude : magnitude (upper - lower) = magnitude (lower - upper) := by
    show max (upper - lower) (-(upper - lower)) = max (lower - upper) (-(lower - upper))
    rw [neg_sub, neg_sub, max_comm]
  have hlarger : maximum (magnitude upper) (magnitude lower) =
      maximum (magnitude lower) (magnitude upper) := max_comm _ _
  rw [isAsymmetric, isAsymmetric, hmagnitude, hlarger]

/-- **Validity does not look at the order of the blocks.** Every cell is there and not negative, those
on the diagonal are zero, and the two cells of a pair agree up to the tolerance. -/
theorem validate_eq_ok_iff_cells :
    m.validate = .ok () ↔ ∀ i < m.size, ∀ j < m.size, (∃ value, m.cell? i j = some value) ∧
      0 ≤ m.cell i j ∧ (i = j → m.cell i j = 0) ∧ isAsymmetric (m.cell i j) (m.cell j i) = false := by
  constructor
  · intro hvalid i hi j hj
    refine ⟨?_, cell_nonneg_of_valid hvalid hi hj, fun hij => hij ▸ cell_self_of_valid hvalid hi, ?_⟩
    · by_cases hij : i = j
      · obtain ⟨value, hvalue, -⟩ := diagonal_of_valid hvalid hi
        exact ⟨value, hij ▸ hvalue⟩
      · obtain ⟨value, hvalue, -⟩ := entry_of_valid hvalid hi hj hij
        exact ⟨value, hvalue⟩
    · have hpair {x y : Nat} (hxy : x < y) (hy : y < m.size) :
          isAsymmetric (m.cell x y) (m.cell y x) = false := by
        obtain ⟨upper, lower, hupper, hlower, -, -, hagree⟩ :=
          pairDefect?_eq_none_iff.mp (pairDefect?_of_valid hvalid hxy hy)
        rwa [cell, cell, hupper, hlower, Option.getD_some, Option.getD_some]
      rcases Nat.lt_trichotomy i j with hlt | rfl | hgt
      · exact hpair hlt hj
      · exact isAsymmetric_self _
      · rw [isAsymmetric_comm]
        exact hpair hgt hi
  · intro h
    have hcell {x y : Nat} (hx : x < m.size) (hy : y < m.size) :
        m.cell? x y = some (m.cell x y) := by
      obtain ⟨value, hvalue⟩ := (h x hx y hy).1
      rw [cell, hvalue, Option.getD_some]
    have hentry {x y : Nat} (hx : x < m.size) (hy : y < m.size) :
        isFinite (m.cell x y) = true ∧ lt (m.cell x y) zero = false :=
      ⟨rfl, decide_eq_false (not_lt.mpr (h x hx y hy).2.1)⟩
    refine validate_eq_ok_iff_forall.mpr fun i hi => ⟨?_, fun j hij hj => ?_⟩
    · exact diagonalDefect?_eq_none_iff.mpr ⟨_, hcell hi hi, decide_eq_true ((h i hi i hi).2.2.1 rfl)⟩
    · exact pairDefect?_eq_none_iff.mpr ⟨_, _, hcell hi hj, hcell hj hi, hentry hi hj, hentry hj hi,
        (h i hi j hj).2.2.2⟩

/-- Blocks chosen from a valid matrix make a valid one. -/
theorem select_valid {places : List Nat} (hlt : ∀ i ∈ places, i < m.size)
    (hvalid : m.validate = .ok ()) : (m.select places).validate = .ok () := by
  rw [validate_eq_ok_iff_cells]
  intro i hi j hj
  have hcell := cell?_of_wellShaped (wellShaped_select m places) hi hj
  rw [size_select] at hi hj
  obtain ⟨-, hnonneg, hzero, hagree⟩ := validate_eq_ok_iff_cells.mp hvalid _
    (hlt _ (List.getElem_mem hi)) _ (hlt _ (List.getElem_mem hj))
  rw [cell_select hi hj, cell_select hj hi]
  exact ⟨hcell, hnonneg, fun hij => hzero (by simp only [hij]), hagree⟩

/-- A valid matrix is valid in every order. -/
theorem reorder_valid (hlt : ∀ i < m.size, p i < m.size) (hvalid : m.validate = .ok ()) :
    (m.reorder p).validate = .ok () :=
  select_valid (by simpa using hlt) hvalid

/-- A matrix with all its cells that is valid in some order is valid. -/
theorem valid_of_reorder (hshape : m.WellShaped)
    (hp : ∀ j < m.size, ∃ i < m.size, p i = j) (hvalid : (m.reorder p).validate = .ok ()) :
    m.validate = .ok () := by
  rw [validate_eq_ok_iff_cells] at hvalid ⊢
  intro x hx y hy
  obtain ⟨i, hi, rfl⟩ := hp x hx
  obtain ⟨j, hj, rfl⟩ := hp y hy
  rw [size_reorder] at hvalid
  obtain ⟨-, hnonneg, -, hagree⟩ := hvalid i hi j hj
  have hzero : m.cell (p i) (p i) = 0 := by
    rw [← cell_reorder hi hi]
    exact (hvalid i hi i hi).2.2.1 rfl
  rw [cell_reorder hi hj] at hnonneg
  rw [cell_reorder hi hj, cell_reorder hj hi] at hagree
  exact ⟨cell?_of_wellShaped hshape hx hy, hnonneg, fun hxy => hxy ▸ hzero, hagree⟩

variable (hlt : ∀ i < m.size, p i < m.size) (hsymm : m.IsSymmetric)
include hlt hsymm

theorem reorder_symmetric : (m.reorder p).IsSymmetric := by
  intro i j hi hj
  rw [size_reorder] at hi hj
  rw [cell_reorder hi hj, cell_reorder hj hi, hsymm _ _ (hlt i hi) (hlt j hj)]

theorem pairDistance_reorder {x y : Nat} (hx : x < m.size) (hy : y < m.size) :
    (m.reorder p).pairDistance x y = m.pairDistance (p x) (p y) := by
  rw [pairDistance_eq_cell (reorder_symmetric hlt hsymm) (by rwa [size_reorder])
    (by rwa [size_reorder]), cell_reorder hx hy,
    pairDistance_eq_cell hsymm (hlt x hx) (hlt y hy)]

/-- **Clusters are as far apart as their images** in the matrix with the old order. -/
theorem between_reorder (hp : Function.Injective p) {linkage : Linkage} {A B : Finset Nat}
    (hA : ∀ x ∈ A, x < m.size) (hB : ∀ x ∈ B, x < m.size) (hAB : Disjoint A B) :
    linkage.between (m.reorder p).pairDistance A B =
      linkage.between m.pairDistance (A.image p) (B.image p) := by
  rw [Linkage.between_image hp m.pairDistance_comm]
  have hunion : ∀ x ∈ A ∪ B, x < m.size := by
    intro x hx
    rcases Finset.mem_union.mp hx with hx | hx
    · exact hA x hx
    · exact hB x hx
  exact Linkage.between_congr hAB fun x hx y hy _ =>
    pairDistance_reorder hlt hsymm (hunion x hx) (hunion y hy)

end ScoreMatrix

end BlockAffinity
