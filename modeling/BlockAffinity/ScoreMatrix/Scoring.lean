import BlockAffinity.Divergence
import BlockAffinity.ScoreMatrix.Basic

/-!
# BlockAffinity.ScoreMatrix.Scoring

**Matrices from scores of pairs.** Each unordered pair of blocks is scored once, and the score
stands on both sides of the diagonal. A distance has to be finite and not negative, a similarity has
to be finite; the first pair, in lexicographic order, whose score is not acceptable ends the scoring.

Similarities become distances by subtracting them from the largest one.
-/

namespace BlockAffinity.ScoreMatrix

variable {α : Type} [Scalar α]

open Scalar

/-- The matrix of the scores of all pairs, unless a score is not acceptable. -/
def ofScores (acceptable : α → Bool) (ids : List BlockId) (score : Nat → Nat → α) :
    Except (Fault α) (ScoreMatrix α) :=
  let table := PairTable.ofFn ids.length score
  match (pairIndices ids.length).find? fun (i, j) => !acceptable (table.get i j) with
  | some (i, j) => .error (.invalidScore (ids.getD i default) (ids.getD j default) (table.get i j))
  | none => .ok (ofPairs ids table)

/-- The matrix of distances. -/
def distances (ids : List BlockId) (score : Nat → Nat → α) : Except (Fault α) (ScoreMatrix α) :=
  ofScores (fun value => isFinite value && !lt value zero) ids score

/-- The matrix of similarities, which may be negative. -/
def similarities (ids : List BlockId) (score : Nat → Nat → α) : Except (Fault α) (ScoreMatrix α) :=
  ofScores isFinite ids score

/-- The score of two profiles, by their places. Where there is no profile the score is not a number,
which is not acceptable. -/
def betweenProfiles (score : Profile α → Profile α → α) (profiles : List (Profile α)) (i j : Nat) :
    α :=
  match profiles[i]?, profiles[j]? with
  | some left, some right => score left right
  | _, _ => nan

/-- The divergences between the blocks. -/
def divergences (profiles : Profiles α) : Except (Fault α) (ScoreMatrix α) :=
  distances profiles.ids (betweenProfiles Divergence.ofBlocks profiles.values)

/-- How many role divergences between the blocks are degenerate. -/
def degenerateDivergences (profiles : Profiles α) : Nat :=
  ((pairIndices profiles.size).map fun (i, j) =>
    match profiles.values[i]?, profiles.values[j]? with
    | some left, some right => Divergence.degenerateCount left right
    | _, _ => 0).foldr (· + ·) 0

/-- The overlaps between the blocks. -/
def overlaps (profiles : Profiles α) : Except (Fault α) (ScoreMatrix α) :=
  similarities profiles.ids (betweenProfiles Overlap.ofBlocks profiles.values)

/-- The largest score of two different blocks, zero if there are none. -/
def maxOffDiagonal (m : ScoreMatrix α) : α :=
  match m.upper.toList with
  | [] => zero
  | first :: rest => rest.foldl maximum first

/-- The distances that belong to similarities: how far each one is below the largest. -/
def toDistances (m : ScoreMatrix α) : ScoreMatrix α :=
  let largest := m.maxOffDiagonal
  ofPairs m.ids (.ofFn m.size fun i j => maximum (largest - m.cell i j) zero)

end BlockAffinity.ScoreMatrix
