import BlockAffinity.Proofs.Linkage.Exhaustive
import BlockAffinity.Proofs.Number.Nonnegative
import BlockAffinity.Proofs.ScoreMatrix.Validity

/-!
# BlockAffinity.Proofs.Linkage.Doubles

**Agglomeration over doubles.** Started from a valid matrix, no run ever computes a NaN: entries are
finite and not negative, and both linkages lead from distances to distances (`Run.measured`). Sums
and squares may overflow, and what is infinite still compares.

So over doubles the dendrogram of a valid matrix is the one of the plain procedure
(`Dendrogram.ofMatrix_eq_exhaustive`).
-/

namespace BlockAffinity

open Scalar Double

namespace Clusters

/-- Between slots in use there are only distances. -/
def Measured (s : Clusters Float) : Prop :=
  ∀ i j, s.isActive i = true → s.isActive j = true → i ≠ j →
    IsDistance (s.distances.get i j) ∧ IsDistance (s.sums.get i j)

theorem Measured.comparable {s : Clusters Float} (h : s.Measured) : s.Comparable :=
  fun {i j} hi hj hij => (isDistance_iff.mp (h i j hi hj hij).1).1

theorem measured_singletons {m : ScoreMatrix Float} (hvalid : m.validate = .ok ()) :
    (singletons m).Measured := by
  intro i j hi hj hij
  have hi := (isActive_singletons m i).mp hi
  have hj := (isActive_singletons m j).mp hj
  have hentry : IsDistance ((SquareTable.ofPairs m.size m.cell).get i j) := by
    rw [SquareTable.get_ofPairs hi hj hij]
    obtain ⟨hfinite, hlt⟩ := ScoreMatrix.cell_of_valid hvalid
      (show min i j < max i j by omega) (show max i j < m.size by omega)
    exact isDistance_iff.mpr ⟨isNaN_of_isFinite hfinite, hlt⟩
  exact ⟨hentry, hentry⟩

section join

variable {s : Clusters Float} {n a b newId : Nat} {linkage : Linkage} {members : Nat → Finset Nat}

/-- The distance to a new cluster is a distance. Average linkage divides by a number of pairs of
blocks, which is positive and fits. -/
theorem Measured.joinedDistance (h : s.Measured) (hholds : s.Holds n members) (hn : n < 2 ^ 64)
    (ha : s.isActive a = true) (hb : s.isActive b = true) (hab : a ≠ b) {k : Nat}
    (hk : s.isActive k = true) (hka : k ≠ a) (hkb : k ≠ b) :
    IsDistance (s.joinedDistance linkage a b k) := by
  cases linkage with
  | average =>
      have hpos : 0 < s.sizeAt k * (s.sizeAt a + s.sizeAt b) :=
        Nat.mul_pos (hholds.size_pos hk) (Nat.add_pos_left (hholds.size_pos ha) _)
      have hlt : s.sizeAt k * (s.sizeAt a + s.sizeAt b) < 2 ^ 128 := by
        calc s.sizeAt k * (s.sizeAt a + s.sizeAt b)
            ≤ n * n := Nat.mul_le_mul (hholds.size_le hk) (hholds.size_add_size_le ha hb hab)
          _ < 2 ^ 64 * 2 ^ 64 := Nat.mul_lt_mul_of_lt_of_lt hn hn
          _ = 2 ^ 128 := (Nat.pow_add 2 64 64).symm
      exact ((h k a hk ha hka).2.add (h k b hk hb hkb).2).div_ofNat hpos hlt
  | ward => exact (isDistance_maximum _).sqrt

theorem Measured.join (h : s.Measured) (hshaped : s.Shaped n) (hholds : s.Holds n members)
    (hn : n < 2 ^ 64) (ha : s.isActive a = true) (hb : s.isActive b = true) (hab : a ≠ b) :
    (s.join linkage a b newId).Measured := by
  intro i j hactive hactive' hij
  obtain ⟨hi, hib⟩ := (isActive_join ha hb).mp hactive
  obtain ⟨hj, hjb⟩ := (isActive_join ha hb).mp hactive'
  constructor
  · rw [distance_join hshaped ha hb hi hj hib hjb hij]
    exact of_newRow hi hj hib hjb hij
      (fun k hk hka hkb => h.joinedDistance hholds hn ha hb hab hk hka hkb) (h i j hi hj hij).1
  · cases linkage with
    | ward =>
        rw [hshaped.sums_join_ward ha hb]
        exact (h i j hi hj hij).2
    | average =>
        rw [sum_join_average hshaped ha hb hi hj hib hjb hij]
        exact of_newRow hi hj hib hjb hij
          (fun k hk hka hkb => (h k a hk ha hka).2.add (h k b hk hb hkb).2) (h i j hi hj hij).2

end join

end Clusters

/-- **No run computes a NaN.** -/
theorem Agglomeration.Run.measured {linkage : Linkage} {m : ScoreMatrix Float}
    (hsize : m.size < 2 ^ 64) (hvalid : m.validate = .ok ()) {merges : List (Merge Float)}
    {members : Nat → Finset Nat} {s : Agglomeration Float} (h : Run linkage m merges members s) :
    s.clusters.Measured := by
  induction h with
  | start => exact Clusters.measured_singletons hvalid
  | merge hrun hpair ih =>
      obtain ⟨ha, hb, hab⟩ := hrun.sound.closestPair?_active hpair
      exact ih.join hrun.sound.shaped hrun.sound.holds hsize ha hb hab.ne

/-- **A dendrogram lists the merges of the plain procedure**, and in every state on the way the
slots in use hold a partition of the blocks, each slot is the first block of its cluster, and each
slot remembers its nearest neighbour. The number of blocks fits a machine word. -/
theorem Dendrogram.ofMatrix_eq_exhaustive (linkage : Linkage) (m : ScoreMatrix Float)
    (hsize : m.size < 2 ^ 64) (hvalid : m.validate = .ok ()) :
    ofMatrix linkage m = .ok (Exhaustive.dendrogram linkage m) ∧
    ∀ merges members s, Agglomeration.Run linkage m merges members s →
      s.clusters.Holds m.size members ∧
      ∀ i, s.clusters.isActive i = true → s.clusters.activeAbove i ≠ [] →
        ∃ near, s.nearestAt i = some near ∧ s.clusters.IsNearest i near := by
  have hcomparable : ∀ merges members s, Agglomeration.Run linkage m merges members s →
      s.clusters.Comparable := fun _ _ _ hrun => (hrun.measured hsize hvalid).comparable
  refine ⟨ofMatrix_eq_dendrogram hvalid hcomparable, ?_⟩
  intro merges members s hrun
  refine ⟨hrun.sound.holds, ?_⟩
  intro i hi habove
  cases hnear : s.nearestAt i with
  | none => exact absurd (hrun.sound.anchored.nothing_above hi hnear) habove
  | some near => exact ⟨near, rfl, hrun.fresh hcomparable hi hnear⟩

theorem Dendrogram.fourBlocks_eq_exhaustive :
    ScoreMatrix.fourBlocks.size < 2 ^ 64 ∧ ScoreMatrix.fourBlocks.validate = .ok () ∧
    ofMatrix .average ScoreMatrix.fourBlocks =
      .ok (Exhaustive.dendrogram .average ScoreMatrix.fourBlocks) ∧
    ∃ near, (Agglomeration.start ScoreMatrix.fourBlocks).nearestAt 0 = some near ∧
      (Agglomeration.start ScoreMatrix.fourBlocks).clusters.IsNearest 0 near := by
  have hsize : ScoreMatrix.fourBlocks.size < 2 ^ 64 := by decide
  obtain ⟨htree, hstates⟩ := ofMatrix_eq_exhaustive .average ScoreMatrix.fourBlocks hsize
    ScoreMatrix.fourBlocks_valid
  have hactive : ∀ i, i < 4 → (Agglomeration.start ScoreMatrix.fourBlocks).clusters.isActive i :=
    fun i hi => (Clusters.isActive_singletons ScoreMatrix.fourBlocks i).mpr hi
  have habove : 1 ∈ (Agglomeration.start ScoreMatrix.fourBlocks).clusters.activeAbove 0 :=
    Clusters.mem_activeAbove.mpr ⟨by decide, hactive 1 (by decide)⟩
  exact ⟨hsize, ScoreMatrix.fourBlocks_valid, htree,
    (hstates _ _ _ .start).2 0 (hactive 0 (by decide)) (List.ne_nil_of_mem habove)⟩

end BlockAffinity
