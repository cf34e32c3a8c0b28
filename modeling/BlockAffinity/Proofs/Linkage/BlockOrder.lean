import Mathlib
import BlockAffinity.Proofs.Linkage.Cut
import BlockAffinity.Proofs.ScoreMatrix.Reordering

/-!
# BlockAffinity.Proofs.Linkage.BlockOrder

**Without ties the order of the blocks does not matter**, in exact arithmetic. Slots, numbers of
clusters and what slots remember all depend on the order; which sets of blocks are clusters does not.
So a state is told here by its clusters as sets of blocks (`Clusters.parts`), and two runs, one of a
matrix and one of the same matrix with its blocks in another order, are followed side by side
(`Run.reorder`).

* A merge takes two sets away and adds their union (`Clusters.parts_join`), so merging a pair and its
  image keeps the clusters images of each other (`Clusters.parts_join_image`).
* The distances of clusters are those of their images (`Run.distance_reorder`).
* If the closest pair is strictly closer than all others, the other run has no choice but to merge its
  images (`Run.closest_reorder`).
* A run of a matrix is the only one of its length (`Run.unique`), so what the run of the reordered
  matrix has been found to do is what its dendrogram lists.
-/

namespace BlockAffinity

open Scalar ExactField

/-! ### Clusters as sets of blocks -/

namespace Clusters

variable {α : Type} {s : Clusters α} {n a b newId : Nat} {linkage : Linkage}
  {members : Nat → Finset Nat}

/-- The clusters, as sets of blocks. -/
def parts (s : Clusters α) (members : Nat → Finset Nat) : Finset (Finset Nat) :=
  s.active.toFinset.image members

theorem mem_parts {A : Finset Nat} :
    A ∈ s.parts members ↔ ∃ i, s.isActive i = true ∧ members i = A := by
  simp [parts]

theorem mem_parts_of_active {i : Nat} (hi : s.isActive i = true) : members i ∈ s.parts members :=
  mem_parts.mpr ⟨i, hi, rfl⟩

theorem exists_slot_iff {x y : Nat} :
    (∃ i, s.isActive i = true ∧ x ∈ members i ∧ y ∈ members i) ↔
      ∃ A ∈ s.parts members, x ∈ A ∧ y ∈ A := by
  constructor
  · intro hexists
    obtain ⟨i, hi, hboth⟩ := hexists
    exact ⟨_, mem_parts_of_active hi, hboth⟩
  · intro hexists
    obtain ⟨A, hA, hboth⟩ := hexists
    obtain ⟨i, hi, rfl⟩ := mem_parts.mp hA
    exact ⟨i, hi, hboth⟩

/-- Different slots hold different sets. -/
theorem Holds.members_inj (h : s.Holds n members) {i j : Nat} (hi : s.isActive i = true)
    (hj : s.isActive j = true) : members i = members j ↔ i = j := by
  refine ⟨fun heq => h.slot_unique hi hj (h.first_mem hi) ?_, fun heq => by rw [heq]⟩
  rw [← heq]
  exact h.first_mem hi

/-- **A merge takes two sets away and adds their union.** -/
theorem parts_join [Scalar α] (h : s.Holds n members) (ha : s.isActive a = true)
    (hb : s.isActive b = true) (hab : a ≠ b) :
    (s.join linkage a b newId).parts (joinBlocks members a b) =
      insert (members a ∪ members b) (((s.parts members).erase (members a)).erase (members b)) := by
  ext A
  simp only [mem_parts, Finset.mem_insert, Finset.mem_erase]
  constructor
  · intro hexists
    obtain ⟨i, hactive, rfl⟩ := hexists
    obtain ⟨hi, hib⟩ := (isActive_join ha hb).mp hactive
    by_cases hia : i = a
    · exact .inl (by rw [hia, joinBlocks_left])
    · rw [joinBlocks_other members hia hib]
      exact .inr ⟨mt (h.members_inj hi hb).mp hib, mt (h.members_inj hi ha).mp hia, i, hi, rfl⟩
  · intro hcases
    rcases hcases with rfl | ⟨hneb, hnea, i, hi, rfl⟩
    · exact ⟨a, (isActive_join ha hb).mpr ⟨ha, hab⟩, joinBlocks_left members a b⟩
    · have hia : i ≠ a := fun heq => hnea (by rw [heq])
      have hib : i ≠ b := fun heq => hneb (by rw [heq])
      exact ⟨i, (isActive_join ha hb).mpr ⟨hi, hib⟩, joinBlocks_other members hia hib⟩

/-- In which order two sets are joined does not matter. -/
theorem joined_congr {A B C D : Finset Nat} (h : s(A, B) = s(C, D)) (P : Finset (Finset Nat)) :
    insert (A ∪ B) ((P.erase A).erase B) = insert (C ∪ D) ((P.erase C).erase D) := by
  rcases Sym2.eq_iff.mp h with ⟨rfl, rfl⟩ | ⟨rfl, rfl⟩
  · rfl
  · rw [Finset.union_comm, Finset.erase_right_comm]

/-! ### Clusters that are images of other clusters -/

section image

variable {s' : Clusters α} {members' : Nat → Finset Nat} {p : Nat → Nat} {a' b' newId' : Nat}
  (hparts : s.parts members = (s'.parts members').image (Finset.image p))
include hparts

theorem exists_slot_image {i' : Nat} (hi' : s'.isActive i' = true) :
    ∃ i, s.isActive i = true ∧ members i = (members' i').image p := by
  refine mem_parts.mp ?_
  rw [hparts]
  exact Finset.mem_image_of_mem _ (mem_parts_of_active hi')

theorem exists_slot_preimage {i : Nat} (hi : s.isActive i = true) :
    ∃ i', s'.isActive i' = true ∧ members i = (members' i').image p := by
  have hmem : members i ∈ s.parts members := mem_parts_of_active hi
  rw [hparts] at hmem
  obtain ⟨A, hA, heq⟩ := Finset.mem_image.mp hmem
  obtain ⟨i', hi', rfl⟩ := mem_parts.mp hA
  exact ⟨i', hi', heq.symm⟩

variable (hp : Function.Injective p)
  (hends : s(members a, members b) = s((members' a').image p, (members' b').image p))
include hp hends

/-- **Merging a pair and its image** keeps the clusters images of each other. -/
theorem parts_join_image [Scalar α] (h : s.Holds n members) (h' : s'.Holds n members')
    (ha : s.isActive a = true) (hb : s.isActive b = true) (hab : a ≠ b)
    (ha' : s'.isActive a' = true) (hb' : s'.isActive b' = true) (hab' : a' ≠ b') :
    (s.join linkage a b newId).parts (joinBlocks members a b) =
      ((s'.join linkage a' b' newId').parts (joinBlocks members' a' b')).image (Finset.image p) := by
  have hinjective := Finset.image_injective hp
  rw [parts_join h ha hb hab, joined_congr hends, parts_join h' ha' hb' hab', hparts,
    Finset.image_insert, Finset.image_erase hinjective, Finset.image_erase hinjective,
    Finset.image_union]

omit hparts in
/-- A pair has as many blocks as its image. -/
theorem size_mergeRecord_image [Scalar α] (h : s.Holds n members) (h' : s'.Holds n members')
    (ha : s.isActive a = true) (hb : s.isActive b = true) (ha' : s'.isActive a' = true)
    (hb' : s'.isActive b' = true) : (s'.mergeRecord a' b').size = (s.mergeRecord a b).size := by
  have hcard : (members' a').card + (members' b').card = (members a).card + (members b).card := by
    rw [← Finset.card_image_of_injective (members' a') hp,
      ← Finset.card_image_of_injective (members' b') hp]
    rcases Sym2.eq_iff.mp hends with ⟨hA, hB⟩ | ⟨hA, hB⟩
    · rw [hA, hB]
    · rw [hA, hB, Nat.add_comm]
  simp only [mergeRecord]
  rw [h.sizeAt_eq ha, h.sizeAt_eq hb, h'.sizeAt_eq ha', h'.sizeAt_eq hb', hcard]

end image

end Clusters

/-! ### The two runs side by side -/

/-- In every state on the way the closest pair is strictly closer than any other pair. -/
def Agglomeration.Untied {K : Type} [ExactField K] (linkage : Linkage) (m : ScoreMatrix K) : Prop :=
  ∀ merges members s, Run linkage m merges members s → ∀ a near, s.closestPair? = some (a, near) →
    ∀ i j, s.clusters.isActive i = true → s.clusters.isActive j = true → i < j →
      i ≠ a ∨ j ≠ near.slot →
      s.clusters.distances.get a near.slot < s.clusters.distances.get i j

/-- The blocks below the two clusters that a merge names, in no order. -/
def Dendrogram.ends {α : Type} (tree : Dendrogram α) (merge : Merge α) : Sym2 (Finset Nat) :=
  s(tree.leavesBelow merge.left, tree.leavesBelow merge.right)

namespace Agglomeration

open Dendrogram

theorem parts_start {α : Type} [Scalar α] (m : ScoreMatrix α) :
    (Agglomeration.start m).clusters.parts (fun i => {i}) =
      (Finset.range m.size).image fun i => {i} := by
  rw [Clusters.parts, Agglomeration.start, Clusters.active_singletons, List.toFinset_range]

/-- The blocks are the images of the blocks. -/
theorem image_range_eq {n : Nat} {p : Nat → Nat} (hp : Function.Injective p)
    (hlt : ∀ i < n, p i < n) : (Finset.range n).image p = Finset.range n := by
  refine Finset.eq_of_subset_of_card_le (fun x hx => ?_) (Finset.card_image_of_injective _ hp).ge
  obtain ⟨i, hi, rfl⟩ := Finset.mem_image.mp hx
  exact Finset.mem_range.mpr (hlt i (Finset.mem_range.mp hi))

section ends

variable {α : Type} [Scalar α] {linkage : Linkage} {m : ScoreMatrix α} {merges : List (Merge α)}
  {members : Nat → Finset Nat} {s : Agglomeration α}

/-- What a merge joins does not change with later merges. -/
theorem Run.ends_concat (h : Run linkage m merges members s) {k : Nat} {merge : Merge α}
    (hk : merges[k]? = some merge) (next : Merge α) :
    ends ⟨m.size, merges ++ [next]⟩ merge = ends ⟨m.size, merges⟩ merge := by
  have hlt : k < merges.length := (List.getElem?_eq_some_iff.mp hk).1
  obtain ⟨hleft, hright⟩ := h.history.ordered k merge hk
  rw [ends, ends, leavesBelow_concat_of_lt _ (by omega), leavesBelow_concat_of_lt _ (by omega)]

/-- A merge joins what the two slots hold. -/
theorem Run.ends_mergeRecord (h : Run linkage m merges members s) {a b : Nat}
    (ha : s.clusters.isActive a = true) (hb : s.clusters.isActive b = true) :
    ends ⟨m.size, merges ++ [s.clusters.mergeRecord a b]⟩ (s.clusters.mergeRecord a b) =
      s(members a, members b) := by
  have hhistory := h.history
  have hslot {i : Nat} (hi : s.clusters.isActive i = true) :
      leavesBelow ⟨m.size, merges ++ [s.clusters.mergeRecord a b]⟩ (s.clusters.idAt i) =
        members i := by
    rw [leavesBelow_concat_of_lt _ (hhistory.idAt_lt hi), hhistory.leaves i hi]
  rw [ends]
  rcases mergeRecord_ends s.clusters a b with ⟨hl, hr⟩ | ⟨hl, hr⟩
  · rw [hl, hr, hslot ha, hslot hb]
  · rw [hl, hr, hslot ha, hslot hb, Sym2.eq_swap]

end ends

variable {K : Type} [ExactField K] {linkage : Linkage} {m : ScoreMatrix K} {p : Nat → Nat}
  {merges merges' : List (Merge K)} {members members' : Nat → Finset Nat} {s s' : Agglomeration K}
  (hroots : linkage = .ward → ExactRoots K) (hvalid : m.validate = .ok ()) (hsymm : m.IsSymmetric)
  (hp : Function.Injective p) (hlt : ∀ i < m.size, p i < m.size)

include hroots hvalid hsymm hp hlt

/-- **Distances are those of the images.** -/
theorem Run.distance_reorder (h : Run linkage m merges members s)
    (h' : Run linkage (m.reorder p) merges' members' s') {i j i' j' : Nat}
    (hi : s.clusters.isActive i = true) (hj : s.clusters.isActive j = true)
    (hi' : s'.clusters.isActive i' = true) (hj' : s'.clusters.isActive j' = true) (hij : i' ≠ j')
    (heq : members i = (members' i').image p) (heq' : members j = (members' j').image p) :
    s'.clusters.distances.get i' j' = s.clusters.distances.get i j := by
  have hholds' := h'.sound.holds
  rw [ScoreMatrix.size_reorder] at hholds'
  have hne : i ≠ j := by
    rintro rfl
    exact hij ((hholds'.members_inj hi' hj').mp
      (Finset.image_injective hp (heq.symm.trans heq')))
  rw [h.distances_eq_between hroots hvalid i j hi hj hne,
    h'.distances_eq_between hroots (ScoreMatrix.reorder_valid hlt hvalid) i' j' hi' hj' hij,
    heq, heq']
  exact ScoreMatrix.between_reorder hlt hsymm hp (fun x hx => hholds'.mem_lt hi' hx)
    (fun x hx => hholds'.mem_lt hj' hx) (hholds'.disjoint hi' hj' hij)

/-- **The other run merges the images** of the closest pair, if no other pair is as close. -/
theorem Run.closest_reorder (huntied : Untied linkage m) (h : Run linkage m merges members s)
    (h' : Run linkage (m.reorder p) merges' members' s')
    (hparts : s.clusters.parts members = (s'.clusters.parts members').image (Finset.image p))
    {a a' : Nat} {near near' : Neighbour K} (hpair : s.closestPair? = some (a, near))
    (hpair' : s'.closestPair? = some (a', near')) :
    s(members a, members near.slot) =
        s((members' a').image p, (members' near'.slot).image p) ∧
      s'.clusters.distances.get a' near'.slot = s.clusters.distances.get a near.slot := by
  have hclosest := h.isClosest hpair
  have hclosest' := h'.isClosest hpair'
  -- the slots that hold the images of the other pair, and those whose images this pair holds
  obtain ⟨i, hi, hA⟩ := Clusters.exists_slot_image hparts hclosest'.left
  obtain ⟨j, hj, hB⟩ := Clusters.exists_slot_image hparts hclosest'.right
  obtain ⟨c, hc, hC⟩ := Clusters.exists_slot_preimage hparts hclosest.left
  obtain ⟨d, hd, hD⟩ := Clusters.exists_slot_preimage hparts hclosest.right
  have hcd : c ≠ d := by
    rintro rfl
    exact hclosest.ordered.ne
      ((h.sound.holds.members_inj hclosest.left hclosest.right).mp (hC.trans hD.symm))
  have hij : i ≠ j := by
    rintro rfl
    exact hclosest'.ordered.ne ((h'.sound.holds.members_inj hclosest'.left hclosest'.right).mp
      (Finset.image_injective hp (hA.symm.trans hB)))
  have hdistance := h.distance_reorder hroots hvalid hsymm hp hlt h' hi hj hclosest'.left
    hclosest'.right hclosest'.ordered.ne hA hB
  have hle : s.clusters.distances.get i j ≤ s.clusters.distances.get a near.slot := by
    rw [← hdistance, ← h.distance_reorder hroots hvalid hsymm hp hlt h' hclosest.left hclosest.right
      hc hd hcd hC hD]
    exact hclosest'.le h'.sound.shaped hc hd hcd
  have hsame : i = a ∧ j = near.slot ∨ i = near.slot ∧ j = a := by
    by_contra hother
    rcases Nat.lt_or_gt_of_ne hij with hlt | hgt
    · exact absurd hle (huntied _ _ _ h a near hpair i j hi hj hlt (by omega)).not_ge
    · rw [h.sound.shaped.distance_comm hi hj] at hle
      exact absurd hle (huntied _ _ _ h a near hpair j i hj hi hgt (by omega)).not_ge
  rcases hsame with ⟨rfl, rfl⟩ | ⟨rfl, rfl⟩
  · exact ⟨by rw [hA, hB], hdistance⟩
  · rw [h.sound.shaped.distance_comm hj hi]
    exact ⟨by rw [hA, hB, Sym2.eq_swap], hdistance⟩

/-- **The runs stay side by side.** The clusters of the one are the images of those of the other, and
so are the ends of their merges, at the same distances and with the same sizes. -/
theorem Run.reorder (huntied : Untied linkage m) (h : Run linkage m merges members s) :
    ∃ merges' members' s', Run linkage (m.reorder p) merges' members' s' ∧
      merges'.length = merges.length ∧
      s.clusters.parts members = (s'.clusters.parts members').image (Finset.image p) ∧
      ∀ (k : Nat) merge merge', merges[k]? = some merge → merges'[k]? = some merge' →
        merge'.distance = merge.distance ∧ merge'.size = merge.size ∧
        ends ⟨m.size, merges⟩ merge =
          (ends ⟨(m.reorder p).size, merges'⟩ merge').map (Finset.image p) := by
  induction h with
  | start =>
      refine ⟨_, _, _, .start, rfl, ?_, by simp⟩
      rw [parts_start, parts_start, ScoreMatrix.size_reorder, Finset.image_image]
      nth_rewrite 1 [← image_range_eq hp hlt]
      rw [Finset.image_image]
      exact Finset.image_congr fun i _ => (Finset.image_singleton p i).symm
  | @merge merges members s a near hrun hpair ih =>
      obtain ⟨merges', members', s', hrun', hlength, hparts, hmerges⟩ := ih
      have hactive := hrun.active_length
      have hactive' := hrun'.active_length
      have hholds' := hrun'.sound.holds
      rw [ScoreMatrix.size_reorder] at hactive' hholds'
      obtain ⟨ha, hb, hab⟩ := hrun.sound.closestPair?_active hpair
      have htwo : 1 < s'.clusters.active.length := by
        have := (Clusters.active_perm ha hb hab.ne).length_eq
        rw [List.length_cons, List.length_cons] at this
        omega
      obtain ⟨a', near', hpair'⟩ := hrun'.sound.closestPair?_isSome htwo
      obtain ⟨ha', hb', hab'⟩ := hrun'.sound.closestPair?_active hpair'
      obtain ⟨hends, hdistance⟩ :=
        hrun.closest_reorder hroots hvalid hsymm hp hlt huntied hrun' hparts hpair hpair'
      refine ⟨_, _, _, hrun'.merge hpair', by simp [hlength], ?_, ?_⟩
      · exact Clusters.parts_join_image hparts hp hends hrun.sound.holds hholds' ha hb hab.ne ha'
          hb' hab'.ne
      · intro k merge merge' hk hk'
        rcases getElem?_concat_cases hk with hold | ⟨rfl, rfl⟩ <;>
          rcases getElem?_concat_cases hk' with hold' | ⟨hnew', rfl⟩
        · rw [hrun.ends_concat hold, hrun'.ends_concat hold']
          exact hmerges k merge merge' hold hold'
        · have := (List.getElem?_eq_some_iff.mp hold).1
          omega
        · have := (List.getElem?_eq_some_iff.mp hold').1
          omega
        · rw [hrun.ends_mergeRecord ha hb, hrun'.ends_mergeRecord ha' hb', hends]
          exact ⟨hdistance, Clusters.size_mergeRecord_image hp hends hrun.sound.holds hholds' ha hb
            ha' hb', rfl⟩

end Agglomeration

namespace Dendrogram

variable {K : Type} [ExactField K] {linkage : Linkage} {m : ScoreMatrix K} {p : Equiv.Perm Nat}
  {tree tree' : Dendrogram K} (hroots : linkage = .ward → ExactRoots K)
  (hvalid : m.validate = .ok ()) (hsymm : m.IsSymmetric) (hp : ∀ i, p i < m.size ↔ i < m.size)
  (huntied : Agglomeration.Untied linkage m) (h : ofMatrix linkage m = .ok tree)
  (h' : ofMatrix linkage (m.reorder p) = .ok tree')

include hroots hvalid hsymm hp huntied h h'

/-- The dendrogram of the reordered matrix lists the images of the merges. -/
theorem ends_reorder : tree'.merges.length = tree.merges.length ∧
    ∀ (k : Nat) merge merge', tree.merges[k]? = some merge → tree'.merges[k]? = some merge' →
      merge'.distance = merge.distance ∧ merge'.size = merge.size ∧
      tree.ends merge = (tree'.ends merge').map (Finset.image p) := by
  obtain ⟨hleaves, hlength, members, s, hrun⟩ := run_of_ofMatrix h
  obtain ⟨hleaves', hlength', members', s', hrun'⟩ := run_of_ofMatrix h'
  obtain ⟨merges, _, _, hother, hcount, -, hends⟩ :=
    hrun.reorder hroots hvalid hsymm p.injective (fun i => (hp i).mpr) huntied
  rw [ScoreMatrix.size_reorder, ← hlength] at hlength'
  obtain ⟨rfl, -, -⟩ := hother.unique hrun' (hcount.trans hlength'.symm)
  rw [← hleaves, ← hleaves'] at hends
  exact ⟨hlength', hends⟩

/-- Cuts at the same threshold apply as many merges. -/
theorem length_appliedMerges_reorder (threshold : K) :
    (tree'.appliedMerges threshold).length = (tree.appliedMerges threshold).length := by
  obtain ⟨hlength, hends⟩ := ends_reorder hroots hvalid hsymm hp huntied h h'
  have hdistances : tree'.merges.map Merge.distance = tree.merges.map Merge.distance := by
    refine List.ext_getElem (by simpa using hlength) fun k hk hk' => ?_
    rw [List.length_map] at hk hk'
    rw [List.getElem_map, List.getElem_map]
    exact (hends k _ _ (List.getElem?_eq_getElem hk') (List.getElem?_eq_getElem hk)).1
  have happlied (tree : Dendrogram K) : (tree.appliedMerges threshold).map Merge.distance =
      (tree.merges.map Merge.distance).takeWhile fun distance => !lt threshold distance := by
    rw [appliedMerges, List.takeWhile_map]
    rfl
  have hcongr := congrArg List.length ((happlied tree').trans (hdistances ▸ (happlied tree).symm))
  rwa [List.length_map, List.length_map] at hcongr

/-- **Cuts put the same blocks together.** -/
theorem exists_labels_reorder (threshold : K) :
    ∃ labels labels', tree.cut m.ids threshold = .ok (.ofLabels m.ids labels) ∧
      tree'.cut (m.reorder p).ids threshold = .ok (.ofLabels (m.reorder p).ids labels') ∧
      labels.length = m.size ∧ labels'.length = m.size ∧
      ∀ x y, x < m.size → y < m.size →
        (labels'[x]? = labels'[y]? ↔ labels[p x]? = labels[p y]?) := by
  have hnan : isNaN threshold = false := rfl
  obtain ⟨members, s, labels, hrun, hcut, hlength, hlabels⟩ := exists_labels_of_ofMatrix h hnan
  obtain ⟨members', s', labels', hrun', hcut', hlength', hlabels'⟩ :=
    exists_labels_of_ofMatrix h' hnan
  obtain ⟨merges, _, _, hother, hcount, hparts, -⟩ :=
    hrun.reorder hroots hvalid hsymm p.injective (fun i => (hp i).mpr) huntied
  obtain ⟨rfl, rfl, rfl⟩ := hother.unique hrun' (hcount.trans
    (length_appliedMerges_reorder hroots hvalid hsymm hp huntied h h' threshold).symm)
  rw [ScoreMatrix.size_reorder] at hlength' hlabels'
  refine ⟨labels, labels', hcut, hcut', hlength, hlength', fun x y hx hy => ?_⟩
  rw [hlabels' x y hx hy, hlabels _ _ ((hp x).mpr hx) ((hp y).mpr hy), Clusters.exists_slot_iff,
    Clusters.exists_slot_iff, hparts, Finset.exists_mem_image]
  simp only [p.injective.mem_finset_image]

end Dendrogram

/-- **Without ties the order of the blocks does not matter.** Let the closest pair be strictly closer
than all others in every state of the run of a valid symmetric matrix, and let the matrix be reordered
by a permutation of its blocks. Then the two dendrograms merge, step by step, the images of the same
sets of blocks, at the same distances and with the same sizes; and at every threshold their cuts give
the same label to the same blocks. -/
theorem Dendrogram.reorder_of_untied {K : Type} [ExactField K] (linkage : Linkage)
    (m : ScoreMatrix K) (p : Equiv.Perm Nat) (hroots : linkage = .ward → ExactRoots K)
    (hvalid : m.validate = .ok ()) (hsymm : m.IsSymmetric) (hp : ∀ i, p i < m.size ↔ i < m.size)
    (huntied : Agglomeration.Untied linkage m) :
    ∃ tree tree', ofMatrix linkage m = .ok tree ∧ ofMatrix linkage (m.reorder p) = .ok tree' ∧
      tree'.merges.length = tree.merges.length ∧
      (∀ (k : Nat) merge merge', tree.merges[k]? = some merge → tree'.merges[k]? = some merge' →
        merge'.distance = merge.distance ∧ merge'.size = merge.size ∧
        tree.ends merge = (tree'.ends merge').map (Finset.image p)) ∧
      ∀ threshold, ∃ labels labels',
        tree.cut m.ids threshold = .ok (.ofLabels m.ids labels) ∧
        tree'.cut (m.reorder p).ids threshold = .ok (.ofLabels (m.reorder p).ids labels') ∧
        labels.length = m.size ∧ labels'.length = m.size ∧
        (∀ x y, x < m.size → y < m.size →
          (labels'[x]? = labels'[y]? ↔ labels[p x]? = labels[p y]?)) ∧
        (m.ids.Nodup → ∀ u ∈ m.ids, ∀ v ∈ m.ids,
          ((Assignment.ofLabels (m.reorder p).ids labels').get? u =
              (Assignment.ofLabels (m.reorder p).ids labels').get? v ↔
            (Assignment.ofLabels m.ids labels).get? u =
              (Assignment.ofLabels m.ids labels).get? v)) := by
  have hlt : ∀ i < m.size, p i < m.size := fun i => (hp i).mpr
  have htree := ofMatrix_of_valid linkage hvalid
  have htree' := ofMatrix_of_valid linkage (ScoreMatrix.reorder_valid hlt hvalid)
  obtain ⟨hlength, hends⟩ := ends_reorder hroots hvalid hsymm hp huntied htree htree'
  refine ⟨_, _, htree, htree', hlength, hends, fun threshold => ?_⟩
  obtain ⟨labels, labels', hcut, hcut', hcount, hcount', hsame⟩ :=
    exists_labels_reorder hroots hvalid hsymm hp huntied htree htree' threshold
  refine ⟨labels, labels', hcut, hcut', hcount, hcount', hsame, fun hids u hu v hv => ?_⟩
  -- each id has a place in the reordered matrix
  have hplace {u : BlockId} (hu : u ∈ m.ids) : ∃ x < m.size, m.ids[p x]? = some u := by
    obtain ⟨i, hi⟩ := List.mem_iff_getElem?.mp hu
    have hi' : p (p.symm i) < m.size := by
      rw [p.apply_symm_apply]
      exact (List.getElem?_eq_some_iff.mp hi).1
    exact ⟨p.symm i, (hp _).mp hi', by rw [p.apply_symm_apply, hi]⟩
  obtain ⟨x, hx, hux⟩ := hplace hu
  obtain ⟨y, hy, hvy⟩ := hplace hv
  have hids' := ScoreMatrix.nodup_ids_reorder p.injective hlt hids
  have hsize' : (m.reorder p).ids.length = labels'.length := ScoreMatrix.size_reorder.trans hcount'.symm
  rw [Assignment.get?_ofLabels hids hcount.symm hux, Assignment.get?_ofLabels hids hcount.symm hvy,
    Assignment.get?_ofLabels hids' hsize' ((ScoreMatrix.getElem?_ids_reorder hx (hlt x hx)).trans hux),
    Assignment.get?_ofLabels hids' hsize' ((ScoreMatrix.getElem?_ids_reorder hy (hlt y hy)).trans hvy)]
  exact hsame x y hx hy

section witness

variable {K : Type} [ExactField K] {linkage : Linkage}

theorem ScoreMatrix.threeBlocks_symmetric : (threeBlocks K).IsSymmetric := by
  intro i j hi hj
  change i < 3 at hi
  change j < 3 at hj
  interval_cases i <;> interval_cases j <;> rfl

/-- The first two blocks are strictly closest, and after their merge only one pair is left. -/
theorem Agglomeration.untied_threeBlocks : Untied linkage (ScoreMatrix.threeBlocks K) := by
  intro merges members s h a near hpair i j hi hj hij hne
  have hclosest := h.isClosest hpair
  have hshaped := h.sound.shaped
  have hcount := h.active_length
  have ha := hclosest.left
  have hb := hclosest.right
  have hab := hclosest.ordered
  cases h with
  | start =>
      have hactive {i : Nat} :
          (Agglomeration.start (ScoreMatrix.threeBlocks K)).clusters.isActive i = true ↔ i < 3 :=
        Clusters.isActive_singletons _ i
      have hdistance {i j : Nat} (hij : i < j) (hj : j < 3) :
          (Agglomeration.start (ScoreMatrix.threeBlocks K)).clusters.distances.get i j =
            if i = 0 ∧ j = 1 then 1 else 1 + 1 := by
        refine (Clusters.distance_singletons (ScoreMatrix.threeBlocks K)
          (show i < (ScoreMatrix.threeBlocks K).size from hij.trans hj)
          (show j < (ScoreMatrix.threeBlocks K).size from hj) hij.ne).trans ?_
        interval_cases j <;> interval_cases i <;> rfl
      have hfirst := hclosest.le hshaped (hactive.mpr (by decide)) (hactive.mpr (by decide)) zero_ne_one
      rw [hactive] at hb hj
      rw [hdistance zero_lt_one (by decide), if_pos ⟨rfl, rfl⟩, hdistance hab hb] at hfirst
      have hclose : a = 0 ∧ near.slot = 1 := by
        by_contra hfar
        rw [if_neg hfar] at hfirst
        exact absurd hfirst (lt_add_one 1).not_ge
      rw [hdistance hab hb, hdistance hij hj, if_pos hclose, if_neg (by omega)]
      exact lt_add_one 1
  | merge _ _ =>
      have hperm := Clusters.active_perm ha hb hab.ne
      have hothers := hperm.length_eq
      have hsize : (ScoreMatrix.threeBlocks K).size = 3 := rfl
      rw [List.length_append, List.length_singleton] at hcount
      rw [List.length_cons, List.length_cons] at hothers
      rw [List.length_eq_zero_iff.mp (show (Clusters.others _ a near.slot).length = 0 by omega)]
        at hperm
      have hi := hperm.mem_iff.mp (Clusters.mem_active.mpr hi)
      have hj := hperm.mem_iff.mp (Clusters.mem_active.mpr hj)
      simp only [List.mem_cons, List.not_mem_nil, or_false] at hi hj
      omega

end witness

/-- The first block last, with both linkages. -/
theorem Dendrogram.threeBlocks_reordered :
    (ScoreMatrix.threeBlocks ℚ).validate = .ok () ∧ (ScoreMatrix.threeBlocks ℚ).IsSymmetric ∧
    Agglomeration.Untied .average (ScoreMatrix.threeBlocks ℚ) ∧
    (∃ tree', ofMatrix .average ((ScoreMatrix.threeBlocks ℚ).reorder (Equiv.swap 0 2)) = .ok tree' ∧
      tree'.merges.map Merge.distance = [1, 2] ∧
      ∃ assignment,
        tree'.cut ((ScoreMatrix.threeBlocks ℚ).reorder (Equiv.swap 0 2)).ids 1 = .ok assignment ∧
        assignment.get? ⟨"a"⟩ = assignment.get? ⟨"b"⟩) ∧
    Agglomeration.Untied .ward (ScoreMatrix.threeBlocks ℝ) ∧ ExactRoots ℝ ∧
    ∃ tree tree', ofMatrix .ward (ScoreMatrix.threeBlocks ℝ) = .ok tree ∧
      ofMatrix .ward ((ScoreMatrix.threeBlocks ℝ).reorder (Equiv.swap 0 2)) = .ok tree' ∧
      tree'.merges.length = tree.merges.length := by
  have hp (i : Nat) : Equiv.swap 0 2 i < 3 ↔ i < 3 := by
    rw [Equiv.swap_apply_def]
    split_ifs <;> omega
  obtain ⟨tree, tree', htree, htree', hlength, hends, hcuts⟩ :=
    reorder_of_untied .average (ScoreMatrix.threeBlocks ℚ) (Equiv.swap 0 2) (fun h => nomatch h)
      ScoreMatrix.threeBlocks_valid ScoreMatrix.threeBlocks_symmetric hp Agglomeration.untied_threeBlocks
  obtain ⟨treeReal, treeReal', htreeReal, htreeReal', hlengthReal, -, -⟩ :=
    reorder_of_untied .ward (ScoreMatrix.threeBlocks ℝ) (Equiv.swap 0 2) (fun _ => exactRoots_real)
      ScoreMatrix.threeBlocks_valid ScoreMatrix.threeBlocks_symmetric hp Agglomeration.untied_threeBlocks
  obtain ⟨labels, labels', hcut, hcut', -, -, -, hsame⟩ := hcuts 1
  have hmerges := ofMatrix_of_valid .average (ScoreMatrix.threeBlocks_valid (K := ℚ))
  obtain rfl := Except.ok.inj (htree.symm.trans hmerges)
  have hdistances : tree'.merges.map Merge.distance = [1, 2] := by
    have hvalid : ((ScoreMatrix.threeBlocks ℚ).reorder (Equiv.swap 0 2)).validate = .ok () :=
      ScoreMatrix.reorder_valid (fun i => (hp i).mpr) ScoreMatrix.threeBlocks_valid
    obtain rfl := Except.ok.inj (htree'.symm.trans (ofMatrix_of_valid .average hvalid))
    decide +kernel
  refine ⟨ScoreMatrix.threeBlocks_valid, ScoreMatrix.threeBlocks_symmetric,
    Agglomeration.untied_threeBlocks, ⟨tree', htree', hdistances, _, hcut', ?_⟩,
    Agglomeration.untied_threeBlocks, exactRoots_real, treeReal, treeReal', htreeReal, htreeReal',
    hlengthReal⟩
  refine (hsame (by decide) ⟨"a"⟩ (by decide) ⟨"b"⟩ (by decide)).mpr ?_
  have hlabels := congrArg (fun result => result.toOption.map fun assignment =>
    decide (assignment.get? ⟨"a"⟩ = assignment.get? ⟨"b"⟩)) hcut
  refine of_decide_eq_true (Option.some.inj (hlabels.symm.trans ?_))
  decide +kernel

end BlockAffinity
