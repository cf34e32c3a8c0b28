import BlockAffinity.Linkage.Dendrogram
import BlockAffinity.ScoreMatrix.Basic
import BlockAffinity.SquareTable

/-!
# BlockAffinity.Linkage.Clusters

**The clusters in the course of an agglomeration.** There is one slot for each block. A slot is
vacant or holds a cluster; merging the clusters of slots `a < b` puts the new cluster into `a` and
vacates `b`, so a cluster always sits in the slot of its first block.

Distances and, for average linkage, sums of distances between blocks are kept for every two slots
that are in use, on both sides of the diagonal of a square table; what is left in the row and in the
column of a vacant slot is never looked at. Average linkage divides the sum, which keeps equal means
equal; Ward linkage goes from the old distances to the new ones. A merge goes through the other slots
in order and reads each of its numbers from the tables as the slots before have left them.
-/

namespace BlockAffinity

/-- A cluster: its number and how many blocks it has. -/
structure Cluster where
  id : Nat
  size : Nat
  deriving Repr, DecidableEq, Inhabited

/-- Clusters by slot, with the distances between them. -/
structure Clusters (α : Type) where
  slots : Array (Option Cluster)
  distances : SquareTable α
  /-- For each two slots the sum of the distances between their blocks. -/
  sums : SquareTable α
  deriving Repr

namespace Clusters

variable {α : Type} [Scalar α]

open Scalar

/-- Every block a cluster of its own. The upper triangle of the matrix counts. -/
def singletons (m : ScoreMatrix α) : Clusters α where
  slots := ((List.range m.size).map fun i => some ⟨i, 1⟩).toArray
  distances := .ofPairs m.size m.cell
  sums := .ofPairs m.size m.cell

/-- Number of slots. -/
def slotCount (s : Clusters α) : Nat := s.slots.size

/-- The cluster in a slot. -/
def cluster? (s : Clusters α) (i : Nat) : Option Cluster := s.slots.getD i none

/-- Whether a slot holds a cluster. -/
def isActive (s : Clusters α) (i : Nat) : Bool := (s.cluster? i).isSome

/-- Number of blocks in a slot, zero if it is vacant. -/
def sizeAt (s : Clusters α) (i : Nat) : Nat := ((s.cluster? i).map Cluster.size).getD 0

/-- Number of the cluster in a slot. -/
def idAt (s : Clusters α) (i : Nat) : Nat := ((s.cluster? i).map Cluster.id).getD 0

/-- The slots in use, in order. -/
def active (s : Clusters α) : List Nat := (List.range s.slotCount).filter s.isActive

/-- The slots in use above a slot, in order. -/
def activeAbove (s : Clusters α) (i : Nat) : List Nat :=
  (List.range' (i + 1) (s.slotCount - (i + 1))).filter s.isActive

/-- The Ward distance from a cluster of `nk` blocks to the union of two clusters of `ni` and `nj`
blocks at distance `dij`. -/
def wardDistance (dki dkj dij : α) (ni nj nk : Nat) : α :=
  let (ni, nj, nk) := (ofNat ni, ofNat nj, ofNat nk)
  let squared : α :=
    ((ni + nk) * dki * dki + (nj + nk) * dkj * dkj - nk * dij * dij) / (ni + nj + nk)
  sqrt (maximum squared zero)

/-- The sum of the distances between the blocks of slot `k` and those of slots `a` and `b`. -/
def joinedSum (s : Clusters α) (a b k : Nat) : α := s.sums.get k a + s.sums.get k b

/-- The distance from slot `k` to the union of slots `a` and `b`. -/
def joinedDistance (linkage : Linkage) (s : Clusters α) (a b k : Nat) : α :=
  match linkage with
  | .average => s.joinedSum a b k / ofNat (s.sizeAt k * (s.sizeAt a + s.sizeAt b))
  | .ward =>
      wardDistance (s.distances.get k a) (s.distances.get k b) (s.distances.get a b) (s.sizeAt a)
        (s.sizeAt b) (s.sizeAt k)

/-- The slots in use other than `a` and `b`. -/
def others (s : Clusters α) (a b : Nat) : List Nat := s.active.filter fun k => k != a && k != b

/-- The merge of slots `a` and `b` as it is recorded. -/
def mergeRecord (s : Clusters α) (a b : Nat) : Merge α where
  left := min (s.idAt a) (s.idAt b)
  right := max (s.idAt a) (s.idAt b)
  distance := s.distances.get a b
  size := s.sizeAt a + s.sizeAt b

/-- Enters what slot `k` is apart from the union of slots `a` and `b`: the sum, which average linkage
keeps, and the distance. Slot `a` is where the union will be. -/
def enterUnion (linkage : Linkage) (a b : Nat) (s : Clusters α) (k : Nat) : Clusters α :=
  let distance := s.joinedDistance linkage a b k
  match linkage with
  | .average =>
      let sum := s.joinedSum a b k
      { s with distances := s.distances.setPair k a distance, sums := s.sums.setPair k a sum }
  | .ward => { s with distances := s.distances.setPair k a distance }

/-- Merges slot `b` into slot `a`, which then holds the cluster numbered `newId`. -/
def join (linkage : Linkage) (s : Clusters α) (a b newId : Nat) : Clusters α :=
  let size := s.sizeAt a + s.sizeAt b
  let entered := (s.others a b).foldl (enterUnion linkage a b) s
  { entered with slots := (entered.slots.setIfInBounds a (some ⟨newId, size⟩)).setIfInBounds b none }

end Clusters

end BlockAffinity
