import BlockAffinity.Proofs.Linkage.Joining
import BlockAffinity.Proofs.Number.Double
import Mathlib.Data.List.TakeWhile

/-!
# BlockAffinity.Proofs.Linkage.Cut

**Cuts at different thresholds.** A lower threshold applies fewer merges, a prefix of those that a
higher one applies. So the cut at the lower threshold refines the other one (`cut_refines`),
whatever the merges are and in whatever order their distances come. In a dendrogram that has been
built from a matrix each applied merge leaves one cluster less (`cut_ofMatrix`).
-/

namespace BlockAffinity

open Scalar

variable {α : Type}

/-! ### Any dendrogram -/

namespace Dendrogram

variable [Scalar α] {tree : Dendrogram α} {ids : List BlockId} {threshold : α} {flat : Assignment}

/-- **A cut returns** the labels of the leaves after the merges that it applies. -/
theorem cut_eq_ok_iff :
    tree.cut ids threshold = .ok flat ↔
      tree.leaves = ids.length ∧ isNaN threshold = false ∧
        ∃ joined, (Joining.start tree.leaves).applyAll (tree.appliedMerges threshold) = .ok joined ∧
          flat = joined.assignment ids := by
  unfold cut
  by_cases hleaves : tree.leaves = ids.length
  · rw [if_neg (not_not.mpr hleaves)]
    cases hnan : isNaN threshold with
    | true => simp
    | false =>
        cases (Joining.start tree.leaves).applyAll (tree.appliedMerges threshold) with
        | error fault => simp
        | ok joined => simp [hleaves, Joining.assignment, eq_comm]
  · simp [hleaves]

/-- A lower threshold applies fewer merges. -/
theorem appliedMerges_prefix [OrderedScalar α] (tree : Dendrogram α) {low high : α}
    (h : le low high = true) : tree.appliedMerges low <+: tree.appliedMerges high := by
  have hboth : tree.appliedMerges low =
      (tree.appliedMerges high).takeWhile fun m => !lt low m.distance := by
    rw [appliedMerges, appliedMerges, List.takeWhile_takeWhile]
    congr 1
    funext m
    -- what is above `high` is above `low`
    cases hhigh : lt high m.distance with
    | false => simp
    | true => simp [OrderedScalar.lt_of_le_of_lt h hhigh]
  rw [hboth]
  exact List.takeWhile_prefix _

/-- **A cut at a lower threshold refines a cut at a higher one**, for any dendrogram. -/
theorem cut_refines [OrderedScalar α] {low high : α} {coarse : Assignment} (hids : ids.Nodup)
    (h : le low high = true) (hcut : tree.cut ids high = .ok coarse) :
    ∃ fine, tree.cut ids low = .ok fine ∧ fine.ids = ids ∧ coarse.ids = ids ∧
      (∀ x ∈ ids, ∀ y ∈ ids, fine.get? x = fine.get? y → coarse.get? x = coarse.get? y) ∧
      coarse.clusterCount ≤ fine.clusterCount := by
  obtain ⟨hleaves, -, t, happly, rfl⟩ := cut_eq_ok_iff.mp hcut
  obtain ⟨u, happly', hfine, hcoarse, hkept⟩ :=
    Joining.of_prefix (Joining.sized_start _) (tree.appliedMerges_prefix h) happly
  rw [hleaves] at hfine hcoarse
  have hlow : isNaN low = false := (OrderedScalar.le_iff.mp h).1
  refine ⟨u.assignment ids, cut_eq_ok_iff.mpr ⟨hleaves, hlow, u, happly', rfl⟩,
    Assignment.ids_ofLabels hids (u.length_labels ids),
    Assignment.ids_ofLabels hids (t.length_labels ids), ?_, ?_⟩
  · intro x hx y hy hxy
    obtain ⟨i, hi⟩ := List.mem_iff_getElem?.mp hx
    obtain ⟨j, hj⟩ := List.mem_iff_getElem?.mp hy
    rw [Joining.get?_assignment_eq_iff hids hi hj] at hxy ⊢
    exact hkept i j hxy
  · rw [Joining.clusterCount_assignment hids hfine, Joining.clusterCount_assignment hids hcoarse]
    exact Forest.card_classes_le (hcoarse.size_forest.trans hfine.size_forest.symm) hkept

end Dendrogram

/-! ### Dendrograms of matrices -/

namespace Dendrogram

variable [Scalar α] {linkage : Linkage} {m : ScoreMatrix α} {tree : Dendrogram α}

/-- Only a valid matrix has a dendrogram, and it lists the merges of a run. -/
theorem run_of_ofMatrix (h : ofMatrix linkage m = .ok tree) :
    tree.leaves = m.size ∧ tree.merges.length = m.size - 1 ∧
      ∃ members s, Agglomeration.Run linkage m tree.merges members s := by
  have hvalid : m.validate = .ok () := by
    unfold ofMatrix at h
    cases hvalidate : m.validate with
    | error fault => simp [hvalidate, bind, Except.bind] at h
    | ok => rfl
  obtain ⟨merges, members, s, htree, hrun, hlength⟩ := run_ofMatrix linkage hvalid
  obtain rfl := Except.ok.inj (h.symm.trans htree)
  exact ⟨rfl, hlength, members, s, hrun⟩

/-- The number of merges that are applied. -/
theorem length_appliedMerges (tree : Dendrogram α) (threshold : α) :
    (tree.appliedMerges threshold).length =
      tree.merges.findIdx fun merge => lt threshold merge.distance := by
  rw [appliedMerges, List.takeWhile_eq_take_findIdx_not, List.length_take]
  simp only [Bool.not_not]
  exact Nat.min_eq_left List.findIdx_le_length

/-- **A cut of the dendrogram of a matrix** gives the labels of a state on the way. -/
theorem exists_joined_of_ofMatrix (h : ofMatrix linkage m = .ok tree) {ids : List BlockId}
    (hlength : ids.length = m.size) {threshold : α} (hnan : isNaN threshold = false) :
    ∃ members s joined, Agglomeration.Run linkage m (tree.appliedMerges threshold) members s ∧
      s.Joined m.size members (tree.appliedMerges threshold) joined ∧
      tree.cut ids threshold = .ok (joined.assignment ids) := by
  obtain ⟨hleaves, -, members, s, hrun⟩ := run_of_ofMatrix h
  obtain ⟨members', s', hrun'⟩ := hrun.of_prefix (List.takeWhile_prefix _)
  obtain ⟨joined, hjoined⟩ := hrun'.joined
  have happlied := hjoined.applied
  rw [← hleaves] at happlied
  exact ⟨members', s', joined, hrun', hjoined,
    cut_eq_ok_iff.mpr ⟨hleaves.trans hlength.symm, hnan, joined, happlied, rfl⟩⟩

/-- **Each applied merge leaves one cluster less**, if the dendrogram is that of a matrix. -/
theorem cut_ofMatrix (h : ofMatrix linkage m = .ok tree) {ids : List BlockId} (hids : ids.Nodup)
    (hlength : ids.length = m.size) {threshold : α} (hnan : isNaN threshold = false) :
    ∃ flat, tree.cut ids threshold = .ok flat ∧
      flat.clusterCount + (tree.appliedMerges threshold).length = m.size := by
  obtain ⟨members, s, joined, -, hjoined, hcut⟩ := exists_joined_of_ofMatrix h hlength hnan
  have hsized := hjoined.sized
  rw [← hlength] at hsized
  refine ⟨joined.assignment ids, hcut, ?_⟩
  rw [Joining.clusterCount_assignment hids hsized]
  exact hjoined.card_classes

/-- **Blocks have the same label** where a state on the way holds them in the same slot. -/
theorem exists_labels_of_ofMatrix (h : ofMatrix linkage m = .ok tree) {threshold : α}
    (hnan : isNaN threshold = false) :
    ∃ members s labels, Agglomeration.Run linkage m (tree.appliedMerges threshold) members s ∧
      tree.cut m.ids threshold = .ok (.ofLabels m.ids labels) ∧ labels.length = m.size ∧
      ∀ x y, x < m.size → y < m.size →
        (labels[x]? = labels[y]? ↔
          ∃ i, s.clusters.isActive i = true ∧ x ∈ members i ∧ y ∈ members i) := by
  obtain ⟨members, s, joined, hrun, hjoined, hcut⟩ := exists_joined_of_ofMatrix h rfl hnan
  refine ⟨members, s, joined.labels m.size, hrun, hcut, (joined.length_labels m.ids).symm, ?_⟩
  intro x y hx hy
  obtain ⟨i, hi, hxi⟩ := hrun.sound.holds.cover.mp hx
  obtain ⟨j, hj, hyj⟩ := hrun.sound.holds.cover.mp hy
  rw [joined.getElem?_labels_eq_iff hx hy, hjoined.same_class_iff hi hj hxi hyj]
  constructor
  · rintro rfl
    exact ⟨i, hi, hxi, hyj⟩
  · intro hexists
    obtain ⟨k, hk, hxk, hyk⟩ := hexists
    rw [← hrun.sound.holds.slot_unique hk hi hxk hxi, hrun.sound.holds.slot_unique hk hj hyk hyj]

end Dendrogram

/-- **Raising the threshold joins clusters.** Any dendrogram over different blocks that can be cut
at `high` can be cut at a threshold `low` that is not larger; blocks that share a label there still
do at `high`, and there are not more clusters at `high`. In the dendrogram of a matrix the clusters
and the merges before the first one above the threshold together are as many as the blocks. -/
theorem Dendrogram.cut_monotone :
    (∀ (tree : Dendrogram Float) (ids : List BlockId) (low high : Float) (coarse : Assignment),
      ids.Nodup → le low high = true → tree.cut ids high = .ok coarse →
      ∃ fine, tree.cut ids low = .ok fine ∧ fine.ids = ids ∧ coarse.ids = ids ∧
        (∀ x ∈ ids, ∀ y ∈ ids, fine.get? x = fine.get? y → coarse.get? x = coarse.get? y) ∧
        coarse.clusterCount ≤ fine.clusterCount) ∧
    ∀ (linkage : Linkage) (m : ScoreMatrix Float) (tree : Dendrogram Float) (ids : List BlockId)
      (threshold : Float), 0 < m.size → ofMatrix linkage m = .ok tree → ids.Nodup →
      ids.length = m.size → isNaN threshold = false →
      ∃ flat, tree.cut ids threshold = .ok flat ∧
        flat.clusterCount + tree.merges.findIdx (fun merge => lt threshold merge.distance) =
          m.size ∧
        (∀ first, tree.merges.head? = some first → lt threshold first.distance = true →
          flat.clusterCount = m.size) ∧
        ((∀ merge ∈ tree.merges, le merge.distance threshold = true) → flat.clusterCount = 1) := by
  refine ⟨fun tree ids low high coarse hids hle hcut => cut_refines hids hle hcut, ?_⟩
  intro linkage m tree ids threshold hpos htree hids hlength hnan
  obtain ⟨flat, hcut, hcount⟩ := cut_ofMatrix htree hids hlength hnan
  rw [length_appliedMerges] at hcount
  refine ⟨flat, hcut, hcount, ?_, ?_⟩
  · intro first hfirst hlt
    obtain ⟨rest, hmerges⟩ := List.head?_eq_some_iff.mp hfirst
    rw [hmerges, List.findIdx_cons, hlt, cond_true] at hcount
    exact hcount
  · intro hall
    have hnone : ∀ merge ∈ tree.merges, lt threshold merge.distance = false := fun merge hmerge =>
      (OrderedScalar.le_iff.mp (hall merge hmerge)).2.2
    obtain ⟨-, hmerges, -⟩ := run_of_ofMatrix htree
    rw [List.findIdx_eq_length.mpr hnone, hmerges] at hcount
    omega

/-- The four blocks are apart at 1, two pairs at 2, and together at 4. -/
theorem Dendrogram.fourBlocks_cut_monotone :
    0 < ScoreMatrix.fourBlocks.size ∧ ScoreMatrix.fourBlocks.ids.Nodup ∧
    le (2 : Float) 4 = true ∧ isNaN (4 : Float) = false ∧
    ∃ tree single fine coarse, ofMatrix .average ScoreMatrix.fourBlocks = .ok tree ∧
      tree.cut ScoreMatrix.fourBlocks.ids 1 = .ok single ∧ single.clusterCount = 4 ∧
      tree.cut ScoreMatrix.fourBlocks.ids 2 = .ok fine ∧ fine.clusterCount = 2 ∧
      tree.cut ScoreMatrix.fourBlocks.ids 4 = .ok coarse ∧ coarse.clusterCount = 1 ∧
      coarse.clusterCount ≤ fine.clusterCount := by
  have hpos : 0 < ScoreMatrix.fourBlocks.size := by decide
  have hids : ScoreMatrix.fourBlocks.ids.Nodup := by decide
  have hle : le (2 : Float) 4 = true := by decide +kernel
  have hnan : isNaN (1 : Float) = false ∧ isNaN (2 : Float) = false ∧
      isNaN (4 : Float) = false := by
    decide +kernel
  have htree := ofMatrix_of_valid .average ScoreMatrix.fourBlocks_valid
  obtain ⟨hrefines, hcounts⟩ := cut_monotone
  obtain ⟨single, hsingle, -, hbelow, -⟩ :=
    hcounts .average _ _ ScoreMatrix.fourBlocks.ids 1 hpos htree hids rfl hnan.1
  obtain ⟨fine, hfine, hcount, -, -⟩ :=
    hcounts .average _ _ ScoreMatrix.fourBlocks.ids 2 hpos htree hids rfl hnan.2.1
  obtain ⟨coarse, hcoarse, -, -, habove⟩ :=
    hcounts .average _ _ ScoreMatrix.fourBlocks.ids 4 hpos htree hids rfl hnan.2.2
  obtain ⟨_, hfine', -, -, -, hfewer⟩ := hrefines _ _ 2 4 coarse hids hle hcoarse
  obtain rfl := Except.ok.inj (hfine.symm.trans hfine')
  refine ⟨hpos, hids, hle, hnan.2.2, _, single, fine, coarse, htree, hsingle, ?_, hfine, ?_,
    hcoarse, ?_, hfewer⟩
  · have hany : ((Agglomeration.mergesFrom .average 3 4
        (.start ScoreMatrix.fourBlocks)).head?.any fun first => lt 1 first.distance) = true := by
      decide +kernel
    obtain ⟨first, hfirst, hlt⟩ := (Option.any_eq_true _ _).mp hany
    exact hbelow first hfirst hlt
  · have htwo : (Agglomeration.mergesFrom .average 3 4
        (.start ScoreMatrix.fourBlocks)).findIdx (fun merge => lt 2 merge.distance) = 2 := by
      decide +kernel
    have hcount : fine.clusterCount + 2 = 4 := htwo ▸ hcount
    omega
  · exact habove (by decide +kernel)

end BlockAffinity
