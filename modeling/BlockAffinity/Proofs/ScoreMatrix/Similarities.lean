import Mathlib
import BlockAffinity.Proofs.ScoreMatrix.Building
import BlockAffinity.Proofs.ScoreMatrix.Order
import BlockAffinity.Proofs.ScoreMatrix.Reordering

/-!
# BlockAffinity.Proofs.ScoreMatrix.Similarities

**Distances from similarities**, in exact arithmetic. The distance of two blocks is how far their
similarity is below the largest one of two different blocks.

* `ScoreMatrix.maxOffDiagonal` is this largest similarity (`isGreatest_maxOffDiagonal`), also where all
  of them are negative. So no difference is negative, and raising it to zero changes nothing
  (`distance_eq_sub`).
* The distances are told by the differences between similarities: the order is reversed
  (`ReversedBy`), and similarities that are all raised by the same amount have the same distances
  (`toDistances_of_raised`).
-/

namespace BlockAffinity.ScoreMatrix

open Scalar

/-- The distances as they are entered pair by pair. -/
theorem toDistances_eq_setPairs {α : Type} [Scalar α] (m : ScoreMatrix α) :
    m.toDistances = (zeros m.ids).setPairs (fun i j => maximum (m.maxOffDiagonal - m.cell i j) zero)
      (pairIndices m.size) :=
  (setPairs_zeros m.ids _).symm

variable {K : Type} [ExactField K] {m : ScoreMatrix K} {i j : Nat}

/-! ### The largest similarity -/

/-- The scores of two different blocks. -/
def offDiagonal (m : ScoreMatrix K) : Set K := {x | ∃ i j, i < j ∧ j < m.size ∧ m.cell i j = x}

/-- **The largest score** of two different blocks is one of them, and none is larger. -/
theorem isGreatest_maxOffDiagonal (h : 2 ≤ m.size) : IsGreatest m.offDiagonal m.maxOffDiagonal := by
  have hfirst : m.cell 0 1 ∈ m.upper.toList :=
    mem_toList_upper.mpr ⟨0, 1, Nat.zero_lt_one, h, rfl⟩
  have hmax : m.upper.toList.max? = some m.maxOffDiagonal := by
    rw [maxOffDiagonal]
    cases hlist : m.upper.toList with
    | nil => simp [hlist] at hfirst
    | cons first rest => exact List.max?_cons'
  obtain ⟨hmem, hle⟩ := List.max?_eq_some_iff.mp hmax
  exact ⟨mem_toList_upper.mp hmem, fun x hx => hle x (mem_toList_upper.mpr hx)⟩

theorem cell_le_maxOffDiagonal (hij : i < j) (hj : j < m.size) : m.cell i j ≤ m.maxOffDiagonal :=
  (isGreatest_maxOffDiagonal (by omega)).2 ⟨i, j, hij, hj, rfl⟩

/-! ### Distances -/

/-- No similarity is above the largest one, so nothing has to be raised to zero. -/
theorem distance_eq_sub (hij : i < j) (hj : j < m.size) :
    maximum (m.maxOffDiagonal - m.cell i j) zero = m.maxOffDiagonal - m.cell i j :=
  max_eq_left (sub_nonneg.mpr (cell_le_maxOffDiagonal hij hj))

theorem cell?_toDistances (hij : i < j) (hj : j < m.size) :
    m.toDistances.cell? i j = some (m.maxOffDiagonal - m.cell i j) ∧
      m.toDistances.cell? j i = some (m.maxOffDiagonal - m.cell i j) := by
  rw [← distance_eq_sub hij hj]
  exact cell?_ofPairs_ofFn hij hj

theorem cell_toDistances (hij : i < j) (hj : j < m.size) :
    m.toDistances.cell i j = m.maxOffDiagonal - m.cell i j := by
  rw [cell, (cell?_toDistances hij hj).1, Option.getD_some]

theorem cell?_self_toDistances (hi : i < m.size) : m.toDistances.cell? i i = some 0 := by
  rw [toDistances, cell?_ofPairs _ hi hi, if_pos rfl]
  rfl

/-- **The distances are valid.** -/
theorem toDistances_valid : m.toDistances.validate = .ok () := by
  -- both cells of a pair hold the same difference
  have hcells {i j : Nat} (hi : i < m.size) (hj : j < m.size) : ∃ x, m.toDistances.cell? i j = some x ∧
      m.toDistances.cell? j i = some x ∧ 0 ≤ x ∧ (i = j → x = 0) := by
    rcases Nat.lt_trichotomy i j with hij | rfl | hji
    · obtain ⟨hupper, hlower⟩ := cell?_toDistances hij hj
      exact ⟨_, hupper, hlower, sub_nonneg.mpr (cell_le_maxOffDiagonal hij hj),
        fun heq => absurd heq hij.ne⟩
    · exact ⟨0, cell?_self_toDistances hi, cell?_self_toDistances hi, le_rfl, fun _ => rfl⟩
    · obtain ⟨hupper, hlower⟩ := cell?_toDistances hji hi
      exact ⟨_, hlower, hupper, sub_nonneg.mpr (cell_le_maxOffDiagonal hji hi),
        fun heq => absurd heq hji.ne'⟩
  rw [validate_eq_ok_iff_cells]
  intro i hi j hj
  obtain ⟨x, hcell, hmirrored, hnonneg, hzero⟩ := hcells hi hj
  rw [cell, cell, hcell, hmirrored, Option.getD_some]
  exact ⟨⟨x, rfl⟩, hnonneg, hzero, isAsymmetric_self x⟩

/-- **The least distance** of two different blocks is zero, that of the most similar ones. -/
theorem isLeast_toDistances (h : 2 ≤ m.size) : IsLeast m.toDistances.offDiagonal 0 := by
  constructor
  · obtain ⟨i, j, hij, hj, hmax⟩ := (isGreatest_maxOffDiagonal h).1
    exact ⟨i, j, hij, hj, by rw [cell_toDistances hij hj, hmax, sub_self]⟩
  · rintro _ ⟨i, j, hij, hj, rfl⟩
    rw [cell_toDistances (m := m) hij hj]
    exact sub_nonneg.mpr (cell_le_maxOffDiagonal hij hj)

/-- **Raising all similarities of different blocks by the same amount** changes no distance. What stands
on the diagonal and below it does not matter. -/
theorem toDistances_of_raised {other : ScoreMatrix K} {c : K} (hids : other.ids = m.ids)
    (h : ∀ i j, i < j → j < m.size → other.cell i j = m.cell i j + c) :
    other.toDistances = m.toDistances := by
  have hsize : other.size = m.size := congrArg List.length hids
  have hmax (h2 : 2 ≤ m.size) : other.maxOffDiagonal = m.maxOffDiagonal + c := by
    refine (isGreatest_maxOffDiagonal (hsize.symm ▸ h2)).unique ⟨?_, ?_⟩
    · obtain ⟨i, j, hij, hj, hmax⟩ := (isGreatest_maxOffDiagonal h2).1
      exact ⟨i, j, hij, hsize.symm ▸ hj, by rw [h i j hij hj, hmax]⟩
    · rintro _ ⟨i, j, hij, hj, rfl⟩
      rw [hsize] at hj
      rw [h i j hij hj]
      exact add_le_add_left (cell_le_maxOffDiagonal hij hj) c
  rw [toDistances, toDistances, hids, hsize]
  refine congrArg (ofPairs m.ids) (PairTable.ofFn_congr fun i j hij hj => ?_)
  rw [hmax (by omega), h i j hij hj, add_sub_add_right_eq_sub]

/-- The distances are the similarities seen from the largest one, which is the distance zero. -/
structure ReversedBy (m distances : ScoreMatrix K) : Prop where
  ids_eq : distances.ids = m.ids
  valid : distances.validate = .ok ()
  upper : ∀ i j, i < j → j < m.size → distances.cell? i j = some (m.maxOffDiagonal - m.cell i j)
  lower : ∀ i j, i < j → j < m.size → distances.cell? j i = some (m.maxOffDiagonal - m.cell i j)
  isGreatest : 2 ≤ m.size → IsGreatest m.offDiagonal m.maxOffDiagonal
  isLeast : 2 ≤ m.size → IsLeast distances.offDiagonal 0
  le_iff : ∀ i j k l, i < j → j < m.size → k < l → l < m.size →
    (m.cell i j ≤ m.cell k l ↔ distances.cell k l ≤ distances.cell i j)

theorem reversedBy_toDistances (m : ScoreMatrix K) : m.ReversedBy m.toDistances where
  ids_eq := rfl
  valid := toDistances_valid
  upper _ _ hij hj := (cell?_toDistances hij hj).1
  lower _ _ hij hj := (cell?_toDistances hij hj).2
  isGreatest := isGreatest_maxOffDiagonal
  isLeast := isLeast_toDistances
  le_iff i j k l hij hj hkl hl := by
    rw [cell_toDistances hij hj, cell_toDistances hkl hl, sub_le_sub_iff_left]

end ScoreMatrix

/-- **Similarities become distances** by looking at them from the largest one. Only the scores above the
diagonal are read, and of these only the differences matter. -/
theorem ScoreMatrix.toDistances_of_similarities {K : Type} [ExactField K] (m : ScoreMatrix K) :
    m.ReversedBy m.toDistances ∧
    (∀ other : ScoreMatrix K, other.ids = m.ids →
      (∀ i j, i < j → j < m.size → other.cell i j = m.cell i j) → other.toDistances = m.toDistances) ∧
    ∀ (other : ScoreMatrix K) (c : K), other.ids = m.ids →
      (∀ i j, i < j → j < m.size → other.cell i j = m.cell i j + c) →
      other.toDistances = m.toDistances := by
  refine ⟨reversedBy_toDistances m, fun other hids h => ?_, fun other c hids h => ?_⟩
  · refine toDistances_of_raised (c := 0) hids fun i j hij hj => ?_
    rw [h i j hij hj, add_zero]
  · exact toDistances_of_raised hids h

namespace ScoreMatrix

/-- Three blocks whose similarities are all negative, with something else on the diagonal and below. -/
def allNegative : ScoreMatrix ℚ := ⟨threeIds, #[5, -3, -1, 0, 7, -2, 8, 4, 6]⟩

/-- The same similarities, raised by four. -/
def allPositive : ScoreMatrix ℚ := ⟨threeIds, #[0, 1, 3, 1, 0, 2, 3, 2, 0]⟩

end ScoreMatrix

/-- The most similar of three blocks are the first and the last, whatever zero the scale starts from. -/
theorem ScoreMatrix.toDistances_of_allNegative :
    allNegative.toDistances.cell? 0 2 = some 0 ∧ allNegative.toDistances.cell? 1 0 = some 2 ∧
    allPositive.toDistances = allNegative.toDistances := by
  obtain ⟨hreversed, -, hraised⟩ := toDistances_of_similarities allNegative
  have hmax : allNegative.maxOffDiagonal = -1 := by decide +kernel
  refine ⟨?_, ?_, hraised allPositive 4 rfl fun i j hij hj => ?_⟩
  · rw [hreversed.upper 0 2 (by decide) (by decide), hmax]
    decide +kernel
  · rw [hreversed.lower 0 1 (by decide) (by decide), hmax]
    decide +kernel
  · have hj : j < 3 := hj
    interval_cases j <;> interval_cases i <;> decide +kernel

end BlockAffinity
