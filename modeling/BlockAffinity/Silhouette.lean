import BlockAffinity.Assignment
import BlockAffinity.ScoreMatrix.Validity

/-!
# BlockAffinity.Silhouette

**How well blocks fit their clusters.** For a block let `a` be its mean distance to the other
blocks of its cluster, zero if there are none, and `b` the least mean distance to the blocks of
another cluster. Its coefficient is `(b - a) / max a b`, and zero where both are zero. The
coefficients are defined only if there are at least two clusters.
-/

namespace BlockAffinity

/-- Coefficients by block and their mean. -/
structure Silhouette (α : Type) where
  scores : Roster α
  mean : α

namespace Silhouette

variable {α : Type} [Scalar α]

open Scalar

/-- The mean of the given cells of a row. -/
def meanOver (row : Nat → α) (members : List Nat) (count : Nat) : α :=
  sum (members.map row) / ofNat count

/-- The mean distance to the other members of a block's cluster. -/
def within (row : Nat → α) (index : Nat) (cluster : List Nat) : α :=
  if cluster.length - 1 = 0 then zero
  else meanOver row (cluster.filter (· != index)) (cluster.length - 1)

/-- The least mean distance to the members of another cluster. -/
def nearestOther? (row : Nat → α) (own : Nat) (clusters : List (Nat × List Nat)) : Option α :=
  (clusters.filter fun cluster => cluster.1 != own).foldl
    (fun least cluster =>
      let mean := meanOver row cluster.2 cluster.2.length
      some (match least with
        | none => mean
        | some value => minimum value mean))
    none

/-- The coefficient that belongs to the two mean distances. -/
def ofDistances (a b : α) : α :=
  let scale := maximum a b
  if eq scale zero then zero else clamp (-one) one ((b - a) / scale)

/-- The coefficient of the block with this row, index and label. -/
def coefficient (row : Nat → α) (index own : Nat) (clusters : List (Nat × List Nat)) : α :=
  let cluster := (clusters.lookup own).getD []
  match nearestOther? row own clusters with
  | none => zero
  | some b => ofDistances (within row index cluster) b

/-- The labels of the blocks in order, unless a block has none. -/
def labelsOf? (assignment : Assignment) (ids : List BlockId) : Except (Fault α) (List Nat) :=
  ids.mapM fun id =>
    match assignment.get? id with
    | some label => .ok label
    | none => .error (.unlabelled id)

/-- The silhouette of labelled blocks, the labels in matrix order. -/
def ofLabels (m : ScoreMatrix α) (labels : List Nat) : Except (Fault α) (Silhouette α) :=
  let clusters := groupByLabel labels.zipIdx
  if clusters.length < 2 then
    .error (.undefinedSilhouette (.tooFewClusters clusters.length m.size))
  else
    let scores := labels.zipIdx.map fun (label, index) =>
      coefficient (m.cell index) index label clusters
    .ok ⟨.ofList (m.ids.zip scores), sum scores / ofNat scores.length⟩

/-- The silhouette of an assignment on a distance matrix. -/
def ofAssignment (m : ScoreMatrix α) (assignment : Assignment) :
    Except (Fault α) (Silhouette α) := do
  m.validate
  if m.isEmpty then .error (.undefinedSilhouette .noBlocks)
  else ofLabels m (← labelsOf? assignment m.ids)

end Silhouette

end BlockAffinity
