import BlockAffinity.Proofs.Analysis.Kept
import BlockAffinity.Proofs.SquareTable

/-!
# BlockAffinity.Proofs.ScoreMatrix.Order

**Pairs may be scored in any order.** Workers that share out the pairs of blocks finish them in an
order that nobody knows; each score goes into the two cells of its pair, and the degenerate
divergences are counted as they come. As long as every pair is taken once, the scores are those of
going through the pairs from the first to the last (`Analysis.scoreInOrder_eq_score`).
-/

namespace BlockAffinity

open Scalar

variable {α : Type} [Scalar α]

namespace PairTable

/-- A table asks its function about pairs only. -/
theorem ofFn_congr {size : Nat} {f g : Nat → Nat → α} (h : ∀ i j, i < j → j < size → f i j = g i j) :
    ofFn size f = ofFn size g := by
  have hcell : ∀ k ∈ List.range (size * size),
      (if k / size < k % size then f (k / size) (k % size) else zero) =
        if k / size < k % size then g (k / size) (k % size) else zero := by
    intro k hk
    split
    · rename_i hlt
      have hsize : 0 < size := Nat.pos_of_mul_pos_left (Nat.zero_lt_of_lt (List.mem_range.mp hk))
      exact h _ _ hlt (Nat.mod_lt k hsize)
    · rfl
  rw [ofFn, ofFn, List.map_congr_left hcell]

end PairTable

/-! ### Scores -/

/-- Scoring asks about pairs only. -/
theorem ScoreMatrix.ofScores_congr {acceptable : α → Bool} {ids : List BlockId}
    {score score' : Nat → Nat → α} (h : ∀ i j, i < j → j < ids.length → score i j = score' i j) :
    ofScores acceptable ids score = ofScores acceptable ids score' := by
  rw [ofScores, ofScores, PairTable.ofFn_congr h]

namespace Analysis

/-- The scores of the pairs as they are found in a table that workers fill in some order. -/
def collected (order : List (Nat × Nat)) (profiles : Profiles α)
    (score : Profile α → Profile α → α) : Nat → Nat → α :=
  ((SquareTable.zeros profiles.ids.length).setPairs
    (ScoreMatrix.betweenProfiles score profiles.values) order).get

/-- How many degenerate divergences workers count that take the pairs in some order. -/
def countDegenerate (order : List (Nat × Nat)) (profiles : Profiles α) : Nat :=
  (order.map fun (i, j) =>
    match profiles.values[i]?, profiles.values[j]? with
    | some left, some right => Divergence.degenerateCount left right
    | _, _ => 0).sum

/-- Scoring with workers that take the pairs in some order. -/
def scoreInOrder (order : List (Nat × Nat)) (settings : Settings α) (profiles : Profiles α) :
    Except (Fault α) (Scores α) := do
  match settings.metric with
  | .jsd =>
      let distances ← ScoreMatrix.distances profiles.ids (collected order profiles Divergence.ofBlocks)
      return ⟨distances, none, countDegenerate order profiles⟩
  | .overlap =>
      let similarities ←
        ScoreMatrix.similarities profiles.ids (collected order profiles Overlap.ofBlocks)
      return ⟨similarities.toDistances, some similarities, 0⟩

/-- **The order in which pairs are taken does not matter.** -/
theorem scoreInOrder_eq_score (settings : Settings α) {profiles : Profiles α}
    {order : List (Nat × Nat)} (horder : order.Perm (pairIndices profiles.size)) :
    scoreInOrder order settings profiles = score settings profiles := by
  have hscores : ∀ acceptable score,
      ScoreMatrix.ofScores acceptable profiles.ids (collected order profiles score) =
        ScoreMatrix.ofScores acceptable profiles.ids
          (ScoreMatrix.betweenProfiles score profiles.values) := by
    rw [← profiles.length_ids] at horder
    intro acceptable score
    refine ScoreMatrix.ofScores_congr fun i j hij hj => ?_
    rw [collected, SquareTable.get_setPairs_zeros (fun _ => horder.mem_iff) (hij.trans hj) hj hij.ne,
      Nat.min_eq_left hij.le, Nat.max_eq_right hij.le]
  have hcount : countDegenerate order profiles = ScoreMatrix.degenerateDivergences profiles :=
    (horder.map _).sum_eq
  rw [scoreInOrder, score]
  cases settings.metric with
  | jsd =>
      dsimp only
      rw [hcount, ScoreMatrix.distances, hscores]
      rfl
  | overlap =>
      dsimp only
      rw [ScoreMatrix.similarities, hscores]
      rfl

end Analysis

end BlockAffinity
