import BlockAffinity.Linkage.Clusters
import BlockAffinity.ScoreMatrix.Validity

/-!
# BlockAffinity.Linkage.Agglomeration

**Building a dendrogram.** As long as two clusters are left, the closest two are merged; of
several closest pairs the one with the lowest first slot, then with the lowest second slot, is
taken.

So that a step need not look at every pair, each slot in use remembers its nearest slot above it.
A merge of `a` and `b` can change this only where the old nearest slot was one of the two, or where
the new cluster in `a` has come closer; `repaired` looks at those cases and leaves the others.
-/

namespace BlockAffinity

/-- A slot with the distance to it. -/
structure Neighbour (α : Type) where
  slot : Nat
  distance : α
  deriving Repr

/-- Clusters together with the nearest slot above each slot in use. -/
structure Agglomeration (α : Type) where
  clusters : Clusters α
  nearest : Array (Option (Neighbour α))
  deriving Repr

namespace Clusters

variable {α : Type} [Scalar α]

open Scalar

/-- The nearer of two neighbours, the first one on a tie. -/
def nearer (best : Option (Neighbour α)) (candidate : Neighbour α) : Option (Neighbour α) :=
  match best with
  | none => some candidate
  | some current => if lt candidate.distance current.distance then some candidate else some current

/-- The nearest slot in use above a slot, the lowest one on a tie. -/
def nearestAbove (s : Clusters α) (i : Nat) : Option (Neighbour α) :=
  (s.activeAbove i).foldl (fun best j => nearer best ⟨j, s.distances.get i j⟩) none

end Clusters

namespace Agglomeration

variable {α : Type} [Scalar α]

open Scalar

/-- The start, with every block a cluster of its own. -/
def start (m : ScoreMatrix α) : Agglomeration α :=
  let clusters := Clusters.singletons m
  { clusters, nearest := ((List.range m.size).map clusters.nearestAbove).toArray }

/-- What is remembered for a slot. -/
def nearestAt (s : Agglomeration α) (i : Nat) : Option (Neighbour α) := s.nearest.getD i none

/-- The closest pair, as its lower slot and the neighbour of that slot. -/
def closestPair? (s : Agglomeration α) : Option (Nat × Neighbour α) :=
  s.clusters.active.foldl
    (fun best i =>
      match s.nearestAt i with
      | none => best
      | some candidate =>
          match best with
          | none => some (i, candidate)
          | some (_, current) =>
              if lt candidate.distance current.distance then some (i, candidate) else best)
    none

/-- What slot `i` remembers once slot `b` has been merged into slot `a`, from what it remembered
before and the clusters after the merge. -/
def repaired (after : Clusters α) (a b i : Nat) (before : Option (Neighbour α)) :
    Option (Neighbour α) :=
  if !after.isActive i then none
  else if i = a then after.nearestAbove i
  else if i < a then
    match before with
    | none => after.nearestAbove i
    | some old =>
        if old.slot = a ∨ old.slot = b then after.nearestAbove i
        else
          let distance := after.distances.get i a
          if lt distance old.distance || (eq distance old.distance && a < old.slot) then
            some ⟨a, distance⟩
          else before
  else if i < b ∧ before.map Neighbour.slot = some b then after.nearestAbove i
  else before

/-- Merges slot `b` into slot `a`. -/
def merge (linkage : Linkage) (s : Agglomeration α) (a b newId : Nat) : Agglomeration α :=
  let after := s.clusters.join linkage a b newId
  { clusters := after
    nearest := ((List.range s.clusters.slotCount).map fun i =>
      repaired after a b i (s.nearestAt i)).toArray }

/-- At most `steps` merges, the first of which creates the cluster numbered `newId`. -/
def mergesFrom (linkage : Linkage) : (steps newId : Nat) → Agglomeration α → List (Merge α)
  | 0, _, _ => []
  | steps + 1, newId, s =>
      match s.closestPair? with
      | none => []
      | some (a, neighbour) =>
          s.clusters.mergeRecord a neighbour.slot
            :: mergesFrom linkage steps (newId + 1) (s.merge linkage a neighbour.slot newId)

end Agglomeration

variable {α : Type} [Scalar α]

/-- The dendrogram of a distance matrix. No merge happens unless the matrix is valid. -/
def Dendrogram.ofMatrix (linkage : Linkage) (m : ScoreMatrix α) :
    Except (Fault α) (Dendrogram α) := do
  m.validate
  return ⟨m.size, Agglomeration.mergesFrom linkage (m.size - 1) m.size (.start m)⟩

end BlockAffinity
