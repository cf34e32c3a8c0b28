/-!
# BlockAffinity.Linkage.Dendrogram

**Merge histories.** Clusters are numbered: the blocks are the clusters `0` to `leaves - 1`, and
the merge at place `k` creates the cluster `leaves + k`. A dendrogram lists the merges in the order
in which they happened.
-/

namespace BlockAffinity

/-- How the distance of two clusters follows from the distances of their blocks. -/
inductive Linkage
  /-- The mean distance between a block of the one and a block of the other. -/
  | average
  /-- The growth of the variance within clusters that merging the two would bring. -/
  | ward
  deriving Repr, DecidableEq, Inhabited

/-- The name of a linkage. -/
def Linkage.label : Linkage → String
  | average => "average"
  | ward => "ward"

/-- One merge of two clusters. -/
structure Merge (α : Type) where
  /-- The smaller number of the two clusters. -/
  left : Nat
  /-- The larger number of the two clusters. -/
  right : Nat
  distance : α
  /-- Number of blocks in the new cluster. -/
  size : Nat
  deriving Repr

/-- A merge history. -/
structure Dendrogram (α : Type) where
  leaves : Nat
  merges : List (Merge α)
  deriving Repr

/-- The number of the cluster that the merge at place `k` creates. -/
def Dendrogram.clusterId {α : Type} (tree : Dendrogram α) (k : Nat) : Nat := tree.leaves + k

end BlockAffinity
