import BlockAffinity.Assignment
import BlockAffinity.Fault
import BlockAffinity.Linkage.Dendrogram
import BlockAffinity.Linkage.Forest
import BlockAffinity.Scalar

/-!
# BlockAffinity.Linkage.Cut

**Flat clusters from a dendrogram.** The merges are applied in order up to the first one whose
distance is above the threshold; two blocks get the same label if the applied merges join them.
Labels are numbered from 1 in the order in which they first appear among the blocks.

Any dendrogram can be cut, also one that no agglomeration has built. A merge that names a cluster
not created before it is an error, if it is applied.
-/

namespace BlockAffinity

/-- Clusters in the course of a cut: the classes of leaves, and for each cluster number one of the
leaves in it. -/
structure Joining where
  forest : Forest
  representatives : Array Nat

namespace Joining

/-- Every leaf by itself. -/
def start (leaves : Nat) : Joining := ⟨.discrete leaves, Array.range leaves⟩

variable {α : Type}

/-- Applies a merge. -/
def apply (s : Joining) (m : Merge α) : Except (Fault α) Joining :=
  match s.representatives[m.left]?, s.representatives[m.right]? with
  | some left, some right =>
      let (rootLeft, forest) := s.forest.find left
      let (rootRight, forest) := forest.find right
      .ok ⟨forest.link rootLeft rootRight, s.representatives.push left⟩
  | _, _ => .error (.shapeMismatch (.unknownCluster m.left m.right))

/-- Applies merges one after the other. -/
def applyAll (s : Joining) : List (Merge α) → Except (Fault α) Joining
  | [] => .ok s
  | m :: rest =>
      match s.apply m with
      | .error fault => .error fault
      | .ok t => t.applyAll rest

end Joining

/-- The roots of numbers, each found in the forest that the one before has left. -/
def Forest.roots (f : Forest) : List Nat → List Nat
  | [] => []
  | x :: rest =>
      let (root, g) := f.find x
      root :: g.roots rest

namespace Dendrogram

variable {α : Type} [Scalar α]

open Scalar

/-- The merges before the first one above the threshold. -/
def appliedMerges (tree : Dendrogram α) (threshold : α) : List (Merge α) :=
  tree.merges.takeWhile fun m => !lt threshold m.distance

/-- Cuts a dendrogram over the given blocks at a threshold. -/
def cut (tree : Dendrogram α) (ids : List BlockId) (threshold : α) :
    Except (Fault α) Assignment :=
  if tree.leaves ≠ ids.length then
    .error (.shapeMismatch (.leafCount tree.leaves ids.length))
  else if isNaN threshold then .error (.settings .cutUndefined)
  else
    match (Joining.start tree.leaves).applyAll (tree.appliedMerges threshold) with
    | .error fault => .error fault
    | .ok joined =>
        .ok (.ofLabels ids (numberClasses [] (joined.forest.roots (List.range tree.leaves))))

end Dendrogram

end BlockAffinity
