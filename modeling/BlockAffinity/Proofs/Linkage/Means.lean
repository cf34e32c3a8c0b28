import Mathlib
import BlockAffinity.Proofs.Linkage.Members
import BlockAffinity.Proofs.Linkage.Monotone

/-!
# BlockAffinity.Proofs.Linkage.Means

**Average linkage is the mean distance**, in exact arithmetic: the distance of two clusters is the
sum of the distances between a block of the one and a block of the other, divided by the number of
such pairs of blocks (`Dendrogram.ofMatrix_average_eq_mean`).

The table of sums is what carries this along a run. A merge adds two of its values, and the sum over
the pairs with a union of two clusters is the sum of both sums (`crossSum_union`); so each value
stays the sum over the pairs of its two clusters, in whatever order clusters are merged. Both tables
have two cells for two slots. A merge reads one of them and writes both, and as they agree at the start
they agree in every state (`Clusters.Shaped`).
-/

namespace BlockAffinity

open Scalar ExactField

section sums

variable {M : Type} [AddCommMonoid M] (f : Nat → Nat → M) {A B C : Finset Nat}

/-- The sum over all pairs of a block from `A` and a block from `B`. -/
def crossSum (A B : Finset Nat) : M := ∑ x ∈ A, ∑ y ∈ B, f x y

@[simp] theorem crossSum_singleton (x y : Nat) : crossSum f {x} {y} = f x y := by
  simp [crossSum]

variable {f}

theorem crossSum_comm (hf : ∀ x y, f x y = f y x) (A B : Finset Nat) :
    crossSum f A B = crossSum f B A := by
  rw [crossSum, Finset.sum_comm, crossSum]
  exact Finset.sum_congr rfl fun y _ => Finset.sum_congr rfl fun x _ => hf x y

/-- Pairs with a block of a union are pairs with a block of one of its two parts. -/
theorem crossSum_union (f : Nat → Nat → M) (A : Finset Nat) (h : Disjoint B C) :
    crossSum f A (B ∪ C) = crossSum f A B + crossSum f A C := by
  rw [crossSum, crossSum, crossSum, ← Finset.sum_add_distrib]
  exact Finset.sum_congr rfl fun x _ => Finset.sum_union h

end sums

namespace Agglomeration

variable {K : Type} [ExactField K] {m : ScoreMatrix K} {merges : List (Merge K)}
  {members : Nat → Finset Nat} {s : Agglomeration K}

/-- **Along a run with average linkage** the sums are those over the pairs of blocks. -/
theorem Run.sums_eq (h : Run .average m merges members s) :
    s.clusters.Relates members s.clusters.sums fun A B sum =>
      sum = crossSum m.pairDistance A B := by
  refine h.relates_sums ?_ ?_ ?_
  · intro A B sum hsum
    rw [hsum, crossSum_comm m.pairDistance_comm]
  · intro x y _ _ _
    rw [crossSum_singleton]
  · intro merges members s a near hrun hpair hsums k hk
    obtain ⟨hactive, hka, hkb⟩ := Clusters.mem_others.mp hk
    obtain ⟨ha, hb, hab⟩ := hrun.sound.closestPair?_active hpair
    rw [Clusters.joinedSum, hsums k a hactive ha hka, hsums k near.slot hactive hb hkb,
      crossSum_union _ _ (hrun.sound.holds.disjoint ha hb hab.ne)]

/-- The distance of two clusters is their sum divided by the number of pairs of their blocks. -/
theorem Run.distance_eq_div (hvalid : m.validate = .ok ()) (h : Run .average m merges members s)
    {i j : Nat} (hi : s.clusters.isActive i = true) (hj : s.clusters.isActive j = true)
    (hij : i ≠ j) :
    s.clusters.distances.get i j =
      s.clusters.sums.get i j / (s.clusters.sizeAt i * s.clusters.sizeAt j) := by
  obtain ⟨_, -, hapart, -, -⟩ := h.apart hvalid (fun heq => nomatch heq)
  have hsize : ((s.clusters.sizeAt i : K) * s.clusters.sizeAt j) ≠ 0 :=
    mul_ne_zero (Nat.cast_ne_zero.mpr (h.sound.holds.size_pos hi).ne')
      (Nat.cast_ne_zero.mpr (h.sound.holds.size_pos hj).ne')
  exact (eq_div_iff hsize).mpr (hapart.sum_eq rfl i j hi hj hij).symm

/-- **The distance of two clusters is the mean distance** between their blocks. -/
theorem Run.distances_eq_mean (hvalid : m.validate = .ok ()) (h : Run .average m merges members s) :
    s.clusters.Relates members s.clusters.distances fun A B distance =>
      distance = crossSum m.pairDistance A B / (A.card * B.card) := by
  intro i j hi hj hij
  rw [h.distance_eq_div hvalid hi hj hij, h.sums_eq i j hi hj hij, h.sound.holds.sizeAt_eq hi,
    h.sound.holds.sizeAt_eq hj]

end Agglomeration

/-- **Average linkage is the mean distance between blocks.** Each merge records the mean over the
pairs of blocks below the two clusters that it names; and in every state on the way the cell of two
slots in use holds the sum over the pairs of their blocks, and for distances this sum divided by the
product of their sizes. The cell on the other side of the diagonal holds the same. -/
theorem Dendrogram.ofMatrix_average_eq_mean {K : Type} [ExactField K] (m : ScoreMatrix K)
    (hvalid : m.validate = .ok ()) :
    (∃ tree, ofMatrix .average m = .ok tree ∧ ∀ merge ∈ tree.merges,
      merge.distance =
        crossSum m.pairDistance (tree.leavesBelow merge.left) (tree.leavesBelow merge.right) /
          ((tree.leavesBelow merge.left).card * (tree.leavesBelow merge.right).card)) ∧
    ∀ merges members s, Agglomeration.Run .average m merges members s →
      s.clusters.Holds m.size members ∧
      ∀ i j, s.clusters.isActive i = true → s.clusters.isActive j = true → i ≠ j →
        s.clusters.sums.cells[i * m.size + j]? =
          some (crossSum m.pairDistance (members i) (members j)) ∧
        s.clusters.sums.cells[j * m.size + i]? = s.clusters.sums.cells[i * m.size + j]? ∧
        s.clusters.distances.cells[i * m.size + j]? =
          some (crossSum m.pairDistance (members i) (members j) /
            (s.clusters.sizeAt i * s.clusters.sizeAt j)) ∧
        s.clusters.distances.cells[j * m.size + i]? = s.clusters.distances.cells[i * m.size + j]? := by
  constructor
  · obtain ⟨merges, members, s, htree, hrun, -⟩ := run_ofMatrix .average hvalid
    refine ⟨_, htree, hrun.forall_merges ?_ fun hrun => hrun.distances_eq_mean hvalid⟩
    intro A B distance hmean
    rw [hmean, crossSum_comm m.pairDistance_comm, mul_comm]
  · intro merges members s hrun
    have hshaped := hrun.sound.shaped
    refine ⟨hrun.sound.holds, fun i j hi hj hij => ?_⟩
    have hi' := hshaped.active_lt hi
    have hj' := hshaped.active_lt hj
    rw [hshaped.sums.toFull.getElem?_cells hi' hj', hshaped.sums.toFull.getElem?_cells hj' hi',
      hshaped.distances.toFull.getElem?_cells hi' hj', hshaped.distances.toFull.getElem?_cells hj' hi',
      hshaped.sums.get_comm hj' hi', hshaped.distances.get_comm hj' hi',
      hrun.distance_eq_div hvalid hi hj hij, hrun.sums_eq i j hi hj hij]
    exact ⟨rfl, rfl, rfl, rfl⟩

/-- Four blocks whose distances violate the triangle inequality. -/
def ScoreMatrix.unevenBlocks : ScoreMatrix ℚ where
  ids := [⟨"a"⟩, ⟨"b"⟩, ⟨"c"⟩, ⟨"d"⟩]
  values := #[0, 1, 2, 5, 1, 0, 4, 6, 2, 4, 0, 10, 5, 6, 10, 0]

theorem ScoreMatrix.unevenBlocks_valid : unevenBlocks.validate = .ok () := by
  refine validate_eq_ok_iff.mpr (Option.isNone_iff_eq_none.mp ?_)
  decide +kernel

/-- The first two blocks are the closest ones. -/
theorem Agglomeration.run_unevenBlocks :
    Run .average ScoreMatrix.unevenBlocks
      [(start ScoreMatrix.unevenBlocks).clusters.mergeRecord 0 1]
      (Clusters.joinBlocks (fun i => {i}) 0 1)
      ((start ScoreMatrix.unevenBlocks).merge .average 0 1 4) := by
  have hslots : ((start ScoreMatrix.unevenBlocks).closestPair?.map fun pair =>
      (pair.1, pair.2.slot)) = some (0, 1) := by
    decide +kernel
  obtain ⟨⟨a, near⟩, hpair, heq⟩ := Option.map_eq_some_iff.mp hslots
  obtain ⟨rfl, hnear⟩ := Prod.mk.inj heq
  exact hnear ▸ Run.start.merge hpair

/-- The blocks join one after the other, at the means of one, two and three distances. Once the first
two are joined, both cells of their union and the third block hold the sum of two distances, and both
cells of the other table the mean. -/
theorem Dendrogram.unevenBlocks_eq_mean :
    ScoreMatrix.unevenBlocks.validate = .ok () ∧
    (∃ tree, ofMatrix .average ScoreMatrix.unevenBlocks = .ok tree ∧
      tree.merges.map Merge.distance = [1, (2 + 4) / 2, (5 + 6 + 10) / 3] ∧
      ∀ merge ∈ tree.merges, merge.distance =
        crossSum ScoreMatrix.unevenBlocks.pairDistance (tree.leavesBelow merge.left)
            (tree.leavesBelow merge.right) /
          ((tree.leavesBelow merge.left).card * (tree.leavesBelow merge.right).card)) ∧
    ∃ merges members s, Agglomeration.Run .average ScoreMatrix.unevenBlocks merges members s ∧
      merges.length = 1 ∧
      s.clusters.sums.cells[0 * 4 + 2]? = some (2 + 4) ∧
      s.clusters.sums.cells[2 * 4 + 0]? = some (2 + 4) ∧
      s.clusters.distances.cells[0 * 4 + 2]? = some 3 ∧
      s.clusters.distances.cells[2 * 4 + 0]? = some 3 := by
  obtain ⟨⟨tree, htree, hmean⟩, hstates⟩ :=
    ofMatrix_average_eq_mean ScoreMatrix.unevenBlocks ScoreMatrix.unevenBlocks_valid
  refine ⟨ScoreMatrix.unevenBlocks_valid, ⟨tree, htree, ?_, hmean⟩, ?_⟩
  · have hmerges := ofMatrix_of_valid .average ScoreMatrix.unevenBlocks_valid
    obtain rfl := Except.ok.inj (htree.symm.trans hmerges)
    decide +kernel
  · obtain ⟨hsum, hsum', hdistance, hdistance'⟩ :=
      (hstates _ _ _ Agglomeration.run_unevenBlocks).2 0 2 (by decide +kernel) (by decide +kernel) (by decide)
    have htwo : crossSum ScoreMatrix.unevenBlocks.pairDistance
        (Clusters.joinBlocks (fun i => {i}) 0 1 0) (Clusters.joinBlocks (fun i => {i}) 0 1 2) =
          2 + 4 := by
      decide +kernel
    rw [htwo] at hsum hdistance
    refine ⟨_, _, _, Agglomeration.run_unevenBlocks, rfl, hsum, hsum'.trans hsum, hdistance.trans ?_, ?_⟩
    · decide +kernel
    · exact hdistance'.trans (hdistance.trans (by decide +kernel))

end BlockAffinity
