import BlockAffinity.Proofs.Number.Range
import BlockAffinity.Proofs.ScoreMatrix.Cells
import BlockAffinity.Proofs.ScoreMatrix.Validity
import BlockAffinity.ScoreMatrix.Scoring

/-!
# BlockAffinity.Proofs.ScoreMatrix.Pairs

**Matrices made from pair tables** have a value in every cell: zero on the diagonal, and on both
sides of it what the table gives for the pair (`cell?_ofPairs`). Scoring succeeds exactly where every
pair has an acceptable score (`ofScores_eq_ok_iff`). Over doubles such a matrix is valid if its
scores are finite and not negative (`validate_ofPairs`).
-/
namespace BlockAffinity

namespace ScoreMatrix

variable {α : Type} [Scalar α]

open Scalar

/-! ### Cells -/

section

variable {ids : List BlockId} {table : PairTable α}

@[simp] theorem ids_ofPairs : (ofPairs ids table).ids = ids := rfl

@[simp] theorem size_ofPairs : (ofPairs ids table).size = ids.length := rfl

theorem ofPairs_eq_tabulate (ids : List BlockId) (table : PairTable α) :
    ofPairs ids table = tabulate ids fun i j => if i = j then zero else table.get i j := rfl

theorem wellShaped_ofPairs (ids : List BlockId) (table : PairTable α) :
    (ofPairs ids table).WellShaped :=
  wellShaped_tabulate _ _

theorem cell?_ofPairs (table : PairTable α) {i j : Nat} (hi : i < ids.length) (hj : j < ids.length) :
    (ofPairs ids table).cell? i j = some (if i = j then zero else table.get i j) := by
  rw [ofPairs_eq_tabulate, cell?_tabulate _ hi hj]

theorem cell_ofPairs {i j : Nat} (hi : i < ids.length) (hj : j < ids.length) :
    (ofPairs ids table).cell i j = if i = j then zero else table.get i j := by
  rw [cell, cell?_ofPairs table hi hj, Option.getD_some]

end

/-- The upper triangle lists the scores of the pairs. -/
theorem mem_toList_upper {m : ScoreMatrix α} {value : α} :
    value ∈ m.upper.toList ↔ ∃ i j, i < j ∧ j < m.size ∧ m.cell i j = value := by
  have hget (i j : Nat) (hij : i < j) (hj : j < m.size) : m.upper.get i j = m.cell i j :=
    PairTable.get_ofFn _ hij hj
  simp only [PairTable.toList, List.mem_map, Prod.exists, mem_pairIndices]
  constructor
  · rintro ⟨i, j, ⟨hij, hj⟩, rfl⟩
    exact ⟨i, j, hij, hj, (hget i j hij hj).symm⟩
  · rintro ⟨i, j, hij, hj, rfl⟩
    exact ⟨i, j, ⟨hij, hj⟩, hget i j hij hj⟩

/-! ### Scores of all pairs -/

/-- The scores that are judged are those of the pairs. -/
theorem ofScores_eq {acceptable : α → Bool} {ids : List BlockId} {score : Nat → Nat → α} :
    ofScores acceptable ids score =
      match (pairIndices ids.length).find? fun pair => !acceptable (score pair.1 pair.2) with
      | some (i, j) => .error (.invalidScore (ids.getD i default) (ids.getD j default) (score i j))
      | none => .ok (ofPairs ids (.ofFn ids.length score)) := by
  have hget : ∀ pair ∈ pairIndices ids.length,
      (PairTable.ofFn ids.length score).get pair.1 pair.2 = score pair.1 pair.2 := fun pair hpair =>
    have ⟨hij, hj⟩ := mem_pairIndices.mp hpair
    PairTable.get_ofFn score hij hj
  have hfind : ((pairIndices ids.length).find? fun pair =>
        !acceptable ((PairTable.ofFn ids.length score).get pair.1 pair.2)) =
      (pairIndices ids.length).find? fun pair => !acceptable (score pair.1 pair.2) :=
    List.find?_congr fun pair hpair => by rw [hget pair hpair]
  unfold ofScores
  dsimp only
  rw [hfind]
  cases h : (pairIndices ids.length).find? fun pair => !acceptable (score pair.1 pair.2) with
  | none => rfl
  | some pair => simp only [hget pair (List.mem_of_find?_eq_some h)]

/-- **Scoring succeeds** if the score of every pair is acceptable. -/
theorem ofScores_eq_ok_iff {acceptable : α → Bool} {ids : List BlockId} {score : Nat → Nat → α}
    {m : ScoreMatrix α} :
    ofScores acceptable ids score = .ok m ↔
      (∀ i j, i < j → j < ids.length → acceptable (score i j) = true) ∧
        m = ofPairs ids (.ofFn ids.length score) := by
  have hall : (∀ i j, i < j → j < ids.length → acceptable (score i j) = true) ↔
      ((pairIndices ids.length).find? fun pair => !acceptable (score pair.1 pair.2)) = none := by
    simp only [List.find?_eq_none, Prod.forall, mem_pairIndices, Bool.not_eq_true',
      Bool.not_eq_false, and_imp]
  rw [hall, ofScores_eq]
  cases (pairIndices ids.length).find? fun pair => !acceptable (score pair.1 pair.2) with
  | none => simp [eq_comm]
  | some pair => simp

end ScoreMatrix

/-! ### Over doubles -/

namespace ScoreMatrix

open Scalar Double

/-- **A matrix of a pair table is valid** if the table holds finite values that are not negative. -/
theorem validate_ofPairs {ids : List BlockId} {table : PairTable Float}
    (h : ∀ i j, i < j → j < ids.length →
      isFinite (table.get i j) = true ∧ lt (table.get i j) zero = false) :
    (ofPairs ids table).validate = .ok () := by
  rw [validate_eq_ok_iff_forall]
  intro i hi
  rw [size_ofPairs] at hi
  refine ⟨?_, fun j hij hj => ?_⟩
  · have hzero : eq (zero : Float) zero = true := by decide +kernel
    simp [diagonalDefect?, cell?_ofPairs table hi hi, hzero]
  · rw [size_ofPairs] at hj
    have hupper := cell?_ofPairs table hi hj
    have hlower := cell?_ofPairs table hj hi
    rw [if_neg hij.ne] at hupper
    rw [if_neg hij.ne', PairTable.get_comm] at hlower
    obtain ⟨hfinite, hnegative⟩ := h i j hij hj
    have hentry : ∀ k l, entryDefect? k l (table.get i j) = none := fun k l =>
      entryDefect?_eq_none_iff.mpr ⟨hfinite, hnegative⟩
    simp [pairDefect?, hupper, hlower, hentry, isAsymmetric_self_of_isFinite hfinite]

end ScoreMatrix

end BlockAffinity
