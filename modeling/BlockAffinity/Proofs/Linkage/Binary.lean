import BlockAffinity.Proofs.Linkage.Run
import BlockAffinity.Proofs.ScoreMatrix.Validity
import Mathlib.Data.List.Nodup

/-!
# BlockAffinity.Proofs.Linkage.Binary

**Dendrograms are binary trees.** A dendrogram that has been built from a matrix merges every
cluster but the last one into exactly one larger cluster, and its sizes count the blocks below.

`leafSets` gives the blocks of each cluster by its number, for any list of merges. The proof carries
two facts along a run (`History`): the numbers that sit in a slot together with those that have
been merged away are all numbers given out so far, each once, and the blocks in a slot are the leaf
set of the number in it. Nothing depends on what distances are or how they compare.
-/

namespace BlockAffinity

variable {α : Type}

namespace Dendrogram

/-! ### Clusters by their numbers -/

/-- The blocks of each cluster in the order of the numbers: a block has itself, and a merge unites
what its two clusters have. A number that has not been given out stands for no blocks. -/
def leafSets (leaves : Nat) (merges : List (Merge α)) : List (Finset Nat) :=
  merges.foldl (fun sets m => sets ++ [sets.getD m.left ∅ ∪ sets.getD m.right ∅])
    ((List.range leaves).map fun i => {i})

/-- The blocks below a cluster. -/
def leavesBelow (tree : Dendrogram α) (id : Nat) : Finset Nat :=
  (leafSets tree.leaves tree.merges).getD id ∅

/-- The size of a cluster: one for a block, otherwise what its merge has recorded. -/
def recordedSize (tree : Dendrogram α) (id : Nat) : Nat :=
  if id < tree.leaves then 1 else ((tree.merges[id - tree.leaves]?).map Merge.size).getD 0

/-- The clusters that merges take away, in order. -/
def children (merges : List (Merge α)) : List Nat := merges.flatMap fun m => [m.left, m.right]

/-- A well-formed binary dendrogram. With `n` leaves the clusters are numbered from `0` to
`2 * n - 2`, the last one being the root. -/
structure IsBinary (tree : Dendrogram α) : Prop where
  length_merges : tree.merges.length = tree.leaves - 1
  /-- A merge takes two different clusters that exist before it. -/
  ordered : ∀ (k : Nat) (merge : Merge α), tree.merges[k]? = some merge →
    merge.left < merge.right ∧ merge.right < tree.leaves + k
  child_once : ∀ id < 2 * tree.leaves - 2, ∃! k : Nat, ∃ merge : Merge α,
    tree.merges[k]? = some merge ∧ (merge.left = id ∨ merge.right = id)
  root_no_child : ∀ merge ∈ tree.merges, merge.left ≠ 2 * tree.leaves - 2 ∧
    merge.right ≠ 2 * tree.leaves - 2
  size_eq_add : ∀ (k : Nat) (merge : Merge α), tree.merges[k]? = some merge →
    merge.size = tree.recordedSize merge.left + tree.recordedSize merge.right
  size_eq_card : ∀ (k : Nat) (merge : Merge α), tree.merges[k]? = some merge →
    merge.size = (tree.leavesBelow (tree.leaves + k)).card
  size_last : ∀ merge : Merge α, tree.merges.getLast? = some merge → merge.size = tree.leaves

theorem leafSets_concat (leaves : Nat) (merges : List (Merge α)) (m : Merge α) :
    leafSets leaves (merges ++ [m]) = leafSets leaves merges ++
      [(leafSets leaves merges).getD m.left ∅ ∪ (leafSets leaves merges).getD m.right ∅] := by
  simp [leafSets]

@[simp] theorem length_leafSets (leaves : Nat) (merges : List (Merge α)) :
    (leafSets leaves merges).length = leaves + merges.length := by
  induction merges using List.reverseRecOn with
  | nil => simp [leafSets]
  | append_singleton merges m ih =>
      rw [leafSets_concat, List.length_append, ih]
      simp [Nat.add_assoc]

@[simp] theorem children_concat (merges : List (Merge α)) (m : Merge α) :
    children (merges ++ [m]) = children merges ++ [m.left, m.right] := by
  simp [children]

section concat

variable {leaves : Nat} {merges : List (Merge α)} (m : Merge α)

/-- A merge changes no older leaf set. -/
theorem leavesBelow_concat_of_lt {id : Nat} (h : id < leaves + merges.length) :
    leavesBelow ⟨leaves, merges ++ [m]⟩ id = leavesBelow ⟨leaves, merges⟩ id := by
  simp only [leavesBelow, leafSets_concat, List.getD_eq_getElem?_getD]
  rw [List.getElem?_append_left (by simpa using h)]

theorem leavesBelow_concat_last :
    leavesBelow ⟨leaves, merges ++ [m]⟩ (leaves + merges.length) =
      leavesBelow ⟨leaves, merges⟩ m.left ∪ leavesBelow ⟨leaves, merges⟩ m.right := by
  simp only [leavesBelow, leafSets_concat]
  rw [List.getD_eq_getElem?_getD, List.getElem?_append_right (by simp)]
  simp

theorem recordedSize_concat_of_lt {id : Nat} (h : id < leaves + merges.length) :
    recordedSize ⟨leaves, merges ++ [m]⟩ id = recordedSize ⟨leaves, merges⟩ id := by
  simp only [recordedSize]
  split
  · rfl
  · rw [List.getElem?_append_left (by omega)]

theorem recordedSize_concat_last :
    recordedSize ⟨leaves, merges ++ [m]⟩ (leaves + merges.length) = m.size := by
  simp [recordedSize]

end concat

theorem leavesBelow_leaf {leaves id : Nat} (merges : List (Merge α)) (h : id < leaves) :
    leavesBelow ⟨leaves, merges⟩ id = {id} := by
  induction merges using List.reverseRecOn with
  | nil => simp [leavesBelow, leafSets, List.getD_eq_getElem?_getD, h]
  | append_singleton merges m ih => rw [leavesBelow_concat_of_lt m (by omega), ih]

/-- The merge that takes a cluster away is unique if no cluster is taken away twice. -/
theorem eq_of_nodup_children {merges : List (Merge α)} (h : (children merges).Nodup)
    {k l : Nat} {x y : Merge α} (hx : merges[k]? = some x) (hy : merges[l]? = some y) {id : Nat}
    (hidx : id ∈ [x.left, x.right]) (hidy : id ∈ [y.left, y.right]) : k = l := by
  have hdisjoint := (List.nodup_flatMap.mp h).2
  rw [List.pairwise_iff_getElem] at hdisjoint
  obtain ⟨hk, rfl⟩ := List.getElem?_eq_some_iff.mp hx
  obtain ⟨hl, rfl⟩ := List.getElem?_eq_some_iff.mp hy
  rcases Nat.lt_trichotomy k l with hkl | hkl | hkl
  · exact absurd hidy (hdisjoint k l hk hl hkl hidx)
  · exact hkl
  · exact absurd hidx (hdisjoint l k hl hk hkl hidy)

/-- A merge of an extended list is an old one or the new one. -/
theorem getElem?_concat_cases {merges : List (Merge α)} {x y : Merge α} {k : Nat}
    (h : (merges ++ [x])[k]? = some y) : merges[k]? = some y ∨ (k = merges.length ∧ x = y) := by
  rw [List.getElem?_append] at h
  split at h
  · exact Or.inl h
  · obtain ⟨hlt, rfl⟩ := List.getElem?_eq_some_iff.mp h
    refine Or.inr ⟨?_, by simp⟩
    rw [List.length_singleton] at hlt
    omega

end Dendrogram

/-! ### Along a run -/

namespace Agglomeration

open Dendrogram

/-- What the merges so far say about the slots. -/
structure History (s : Agglomeration α) (n : Nat) (members : Nat → Finset Nat)
    (merges : List (Merge α)) : Prop where
  /-- Every number given out is in a slot or has been merged away, and that only once. -/
  numbers : (s.clusters.active.map s.clusters.idAt ++ children merges).Perm
    (List.range (n + merges.length))
  /-- The number given out last is in a slot. -/
  newest : 0 < n → n + merges.length - 1 ∈ s.clusters.active.map s.clusters.idAt
  leaves : ∀ i, s.clusters.isActive i = true →
    leavesBelow ⟨n, merges⟩ (s.clusters.idAt i) = members i
  sizes : ∀ id < n + merges.length,
    recordedSize ⟨n, merges⟩ id = (leavesBelow ⟨n, merges⟩ id).card
  ordered : ∀ (k : Nat) (merge : Merge α), merges[k]? = some merge →
    merge.left < merge.right ∧ merge.right < n + k
  added : ∀ (k : Nat) (merge : Merge α), merges[k]? = some merge →
    merge.size = recordedSize ⟨n, merges⟩ merge.left + recordedSize ⟨n, merges⟩ merge.right

variable {s : Agglomeration α} {n : Nat} {members : Nat → Finset Nat} {merges : List (Merge α)}

theorem History.idAt_lt (h : s.History n members merges) {i : Nat}
    (hi : s.clusters.isActive i = true) : s.clusters.idAt i < n + merges.length := by
  refine List.mem_range.mp (h.numbers.subset (List.mem_append_left _ ?_))
  exact List.mem_map_of_mem (Clusters.mem_active.mpr hi)

/-- Different slots hold different clusters. -/
theorem History.idAt_inj (h : s.History n members merges) {i j : Nat}
    (hi : s.clusters.isActive i = true) (hj : s.clusters.isActive j = true)
    (hid : s.clusters.idAt i = s.clusters.idAt j) : i = j := by
  have hnodup := (List.nodup_append.mp (h.numbers.nodup_iff.mpr List.nodup_range)).1
  exact List.inj_on_of_nodup_map hnodup (Clusters.mem_active.mpr hi) (Clusters.mem_active.mpr hj)
    hid

/-- The recorded size of the cluster in a slot is the size kept for that slot. -/
theorem History.recordedSize_idAt (h : s.History n members merges)
    (hholds : s.clusters.Holds n members) {i : Nat} (hi : s.clusters.isActive i = true) :
    recordedSize ⟨n, merges⟩ (s.clusters.idAt i) = s.clusters.sizeAt i := by
  rw [h.sizes _ (h.idAt_lt hi), h.leaves i hi, hholds.sizeAt_eq hi]

variable [Scalar α]

theorem history_start (m : ScoreMatrix α) : (start m).History m.size (fun i => {i}) [] where
  numbers := by
    have hids : (Clusters.singletons m).active.map (Clusters.singletons m).idAt =
        List.range m.size := by
      rw [Clusters.active_singletons]
      refine (List.map_congr_left fun i hi => ?_).trans (List.map_id _)
      exact Clusters.idAt_singletons m (List.mem_range.mp hi)
    simp [start, hids, children]
  newest := by
    intro hn
    refine List.mem_map.mpr ⟨m.size - 1, ?_, ?_⟩
    · exact Clusters.mem_active.mpr ((Clusters.isActive_singletons m _).mpr (by omega))
    · exact Clusters.idAt_singletons m (by omega)
  leaves := by
    intro i hi
    have hlt : i < m.size := (Clusters.isActive_singletons m i).mp hi
    rw [show (start m).clusters.idAt i = i from Clusters.idAt_singletons m hlt]
    exact leavesBelow_leaf [] hlt
  sizes := by
    intro id hid
    have hlt : id < m.size := by simpa using hid
    rw [leavesBelow_leaf [] hlt, recordedSize, if_pos hlt, Finset.card_singleton]
  ordered := by simp
  added := by simp

section merge

variable {a b : Nat} {linkage : Linkage}

/-- The numbers in the slots after a merge: the two merged ones have made way for the new one. -/
theorem ids_join_perm (linkage : Linkage) (ha : s.clusters.isActive a = true)
    (hb : s.clusters.isActive b = true) (hab : a ≠ b) (newId : Nat) :
    ((s.clusters.join linkage a b newId).active.map
        (s.clusters.join linkage a b newId).idAt).Perm
      (newId :: (s.clusters.others a b).map s.clusters.idAt) := by
  refine ((Clusters.active_join_perm ha hb hab).map _).trans ?_
  rw [List.map_cons, Clusters.idAt_join ha hb hab, if_pos rfl]
  refine List.Perm.cons _ (List.Perm.of_eq (List.map_congr_left fun k hk => ?_))
  obtain ⟨-, hka, hkb⟩ := Clusters.mem_others.mp hk
  rw [Clusters.idAt_join ha hb hkb, if_neg hka]

/-- A record names the clusters of both slots, in ascending order. -/
theorem mergeRecord_ends (s : Clusters α) (a b : Nat) :
    ((s.mergeRecord a b).left = s.idAt a ∧ (s.mergeRecord a b).right = s.idAt b) ∨
      ((s.mergeRecord a b).left = s.idAt b ∧ (s.mergeRecord a b).right = s.idAt a) := by
  simp only [Clusters.mergeRecord]
  omega

/-- The numbers stay complete: the new one is in a slot, and the two merged ones are children. -/
theorem History.numbers_merge (h : s.History n members merges) (ha : s.clusters.isActive a = true)
    (hb : s.clusters.isActive b = true) (hab : a ≠ b) :
    ((s.clusters.join linkage a b (n + merges.length)).active.map
        (s.clusters.join linkage a b (n + merges.length)).idAt ++
      children (merges ++ [s.clusters.mergeRecord a b])).Perm
      (List.range (n + (merges ++ [s.clusters.mergeRecord a b]).length)) := by
  have hpair : [(s.clusters.mergeRecord a b).left, (s.clusters.mergeRecord a b).right].Perm
      [s.clusters.idAt a, s.clusters.idAt b] := by
    rcases mergeRecord_ends s.clusters a b with ⟨hl, hr⟩ | ⟨hl, hr⟩ <;> rw [hl, hr]
    exact List.Perm.swap _ _ _
  have hids := ids_join_perm linkage ha hb hab (n + merges.length)
  have hactive := (Clusters.active_perm ha hb hab).map s.clusters.idAt
  have hold := (hactive.symm.append_right (children merges)).trans h.numbers
  rw [children_concat, List.length_append, List.length_singleton, ← Nat.add_assoc,
    List.range_succ]
  -- now both sides list the same numbers
  refine (hids.append (hpair.append_left _)).trans (.trans ?_ (hold.append_right _))
  refine List.perm_iff_count.mpr fun x => ?_
  simp only [List.map_cons, List.count_append, List.count_cons, List.count_nil]
  omega

/-- A record names the lower number first, and both have been given out. -/
theorem History.mergeRecord_ordered (h : s.History n members merges) (ha : s.clusters.isActive a = true)
    (hb : s.clusters.isActive b = true) (hab : a ≠ b) :
    (s.clusters.mergeRecord a b).left < (s.clusters.mergeRecord a b).right ∧
      (s.clusters.mergeRecord a b).right < n + merges.length := by
  have hne : s.clusters.idAt a ≠ s.clusters.idAt b := fun hid => hab (h.idAt_inj ha hb hid)
  have halt := h.idAt_lt ha
  have hblt := h.idAt_lt hb
  simp only [Clusters.mergeRecord]
  omega

/-- Below the two clusters that a record names are the blocks of both slots. -/
theorem History.leavesBelow_mergeRecord (h : s.History n members merges)
    (ha : s.clusters.isActive a = true) (hb : s.clusters.isActive b = true) :
    leavesBelow ⟨n, merges⟩ (s.clusters.mergeRecord a b).left ∪
      leavesBelow ⟨n, merges⟩ (s.clusters.mergeRecord a b).right = members a ∪ members b := by
  rcases mergeRecord_ends s.clusters a b with ⟨hl, hr⟩ | ⟨hl, hr⟩ <;>
    rw [hl, hr, h.leaves a ha, h.leaves b hb]
  exact Finset.union_comm _ _

/-- A record adds the sizes that are recorded for the two clusters. -/
theorem History.size_mergeRecord (h : s.History n members merges) (hholds : s.clusters.Holds n members)
    (ha : s.clusters.isActive a = true) (hb : s.clusters.isActive b = true) :
    (s.clusters.mergeRecord a b).size =
      recordedSize ⟨n, merges⟩ (s.clusters.mergeRecord a b).left +
        recordedSize ⟨n, merges⟩ (s.clusters.mergeRecord a b).right := by
  have hsize : (s.clusters.mergeRecord a b).size = s.clusters.sizeAt a + s.clusters.sizeAt b := rfl
  rcases mergeRecord_ends s.clusters a b with ⟨hl, hr⟩ | ⟨hl, hr⟩ <;>
    rw [hl, hr, h.recordedSize_idAt hholds ha, h.recordedSize_idAt hholds hb, hsize]
  exact Nat.add_comm _ _

theorem History.merge (h : s.History n members merges) (hsound : s.Sound n members)
    (ha : s.clusters.isActive a = true) (hb : s.clusters.isActive b = true) (hab : a < b) :
    (s.merge linkage a b (n + merges.length)).History n (Clusters.joinBlocks members a b)
      (merges ++ [s.clusters.mergeRecord a b]) where
  numbers := h.numbers_merge ha hb hab.ne
  newest := by
    intro _
    refine (ids_join_perm linkage ha hb hab.ne _).mem_iff.mpr ?_
    simp
  leaves := by
    intro i hactive
    obtain ⟨hi, hib⟩ := (Clusters.isActive_join ha hb).mp hactive
    rw [show (s.merge linkage a b (n + merges.length)).clusters.idAt i = _ from
      Clusters.idAt_join ha hb hib]
    by_cases hia : i = a
    · subst hia
      rw [if_pos rfl, leavesBelow_concat_last, h.leavesBelow_mergeRecord ha hb, Clusters.joinBlocks_left]
    · rw [if_neg hia, leavesBelow_concat_of_lt _ (h.idAt_lt hi), h.leaves i hi,
        Clusters.joinBlocks_other members hia hib]
  sizes := by
    intro id hid
    by_cases hlt : id < n + merges.length
    · rw [recordedSize_concat_of_lt _ hlt, leavesBelow_concat_of_lt _ hlt, h.sizes id hlt]
    · obtain rfl : id = n + merges.length := by
        simp only [List.length_append, List.length_singleton] at hid
        omega
      rw [recordedSize_concat_last, leavesBelow_concat_last, h.leavesBelow_mergeRecord ha hb,
        Finset.card_union_of_disjoint (hsound.holds.disjoint ha hb hab.ne),
        ← hsound.holds.sizeAt_eq ha, ← hsound.holds.sizeAt_eq hb]
      rfl
  ordered := by
    intro k merge hk
    rcases getElem?_concat_cases hk with hk | ⟨rfl, rfl⟩
    · exact h.ordered k merge hk
    · exact h.mergeRecord_ordered ha hb hab.ne
  added := by
    intro k merge hk
    -- both clusters are older than the merge, so their sizes have been recorded before
    have hlt : merge.left < n + merges.length ∧ merge.right < n + merges.length := by
      rcases getElem?_concat_cases hk with hk | ⟨rfl, rfl⟩
      · have hordered := h.ordered k merge hk
        have hk' : k < merges.length := (List.getElem?_eq_some_iff.mp hk).1
        omega
      · have hordered := h.mergeRecord_ordered ha hb hab.ne
        omega
    rw [recordedSize_concat_of_lt _ hlt.1, recordedSize_concat_of_lt _ hlt.2]
    rcases getElem?_concat_cases hk with hk | ⟨rfl, rfl⟩
    · exact h.added k merge hk
    · exact h.size_mergeRecord hsound.holds ha hb

end merge

theorem Run.history {linkage : Linkage} {m : ScoreMatrix α}
    (h : Run linkage m merges members s) : s.History m.size members merges := by
  induction h with
  | start => exact history_start m
  | merge hrun hpair ih =>
      obtain ⟨ha, hb, hab⟩ := hrun.sound.closestPair?_active hpair
      exact ih.merge hrun.sound ha hb hab

/-- After all merges one slot is left. It holds the cluster created last, which has all blocks. -/
theorem Run.last_slot {linkage : Linkage} {m : ScoreMatrix α}
    (h : Run linkage m merges members s) (hlength : merges.length = m.size - 1)
    (hpos : 0 < m.size) :
    ∃ i, s.clusters.active = [i] ∧ s.clusters.idAt i = 2 * m.size - 2 ∧
      leavesBelow ⟨m.size, merges⟩ (2 * m.size - 2) = Finset.range m.size := by
  have hone : s.clusters.active.length = 1 := by
    have := h.active_length
    omega
  obtain ⟨i, hactive⟩ := List.length_eq_one_iff.mp hone
  have hmem : ∀ {j}, s.clusters.isActive j = true ↔ j = i := fun {j} => by
    rw [← Clusters.mem_active, hactive, List.mem_singleton]
  have hid : s.clusters.idAt i = 2 * m.size - 2 := by
    have hnewest := h.history.newest hpos
    rw [hactive, List.map_singleton, List.mem_singleton] at hnewest
    omega
  refine ⟨i, hactive, hid, ?_⟩
  rw [← hid, h.history.leaves i (hmem.mpr rfl)]
  ext x
  rw [Finset.mem_range, h.sound.holds.cover]
  constructor
  · exact fun hx => ⟨i, hmem.mpr rfl, hx⟩
  · intro hexists
    obtain ⟨j, hj, hx⟩ := hexists
    rwa [← hmem.mp hj]

/-- After all merges every number but the root has been merged away. -/
theorem Run.children_perm {linkage : Linkage} {m : ScoreMatrix α}
    (h : Run linkage m merges members s) (hlength : merges.length = m.size - 1) :
    (children merges).Perm (List.range (2 * m.size - 2)) := by
  rcases Nat.eq_zero_or_pos m.size with hzero | hpos
  · have hnil : merges = [] := List.length_eq_zero_iff.mp (by omega)
    simp [hnil, hzero, children]
  · obtain ⟨i, hactive, hid, -⟩ := h.last_slot hlength hpos
    have hnumbers := h.history.numbers
    have hcount : m.size + merges.length = 2 * m.size - 2 + 1 := by omega
    rw [hactive, List.map_singleton, hid, hcount, List.range_succ] at hnumbers
    exact (hnumbers.trans List.perm_append_comm).cons_inv

/-- The merges of a run of full length are a binary dendrogram. -/
theorem Run.isBinary {linkage : Linkage} {m : ScoreMatrix α}
    (h : Run linkage m merges members s) (hlength : merges.length = m.size - 1) :
    IsBinary ⟨m.size, merges⟩ := by
  have hhistory := h.history
  have hperm := h.children_perm hlength
  have hnodup : (children merges).Nodup := hperm.nodup_iff.mpr List.nodup_range
  have hcard : ∀ (k : Nat) (merge : Merge α), merges[k]? = some merge →
      merge.size = (leavesBelow ⟨m.size, merges⟩ (m.size + k)).card := by
    intro k merge hk
    have hlt : k < merges.length := (List.getElem?_eq_some_iff.mp hk).1
    rw [← hhistory.sizes _ (by omega), recordedSize, if_neg (Nat.not_lt.mpr (Nat.le_add_right _ _)),
      Nat.add_sub_cancel_left, hk, Option.map_some, Option.getD_some]
  refine ⟨hlength, hhistory.ordered, ?_, ?_, hhistory.added, hcard, ?_⟩
  · -- child_once
    intro id hid
    have hmem : id ∈ children merges := hperm.mem_iff.mpr (List.mem_range.mpr hid)
    obtain ⟨merge, hmerge, hends⟩ := List.mem_flatMap.mp hmem
    obtain ⟨k, hk⟩ := List.mem_iff_getElem?.mp hmerge
    refine ⟨k, ⟨merge, hk, by simpa [eq_comm] using hends⟩, ?_⟩
    intro l hexists
    obtain ⟨other, hl, hother⟩ := hexists
    exact eq_of_nodup_children hnodup hl hk (by simpa [eq_comm] using hother) hends
  · -- root_no_child
    intro merge hmerge
    have hlt : ∀ id ∈ [merge.left, merge.right], id < 2 * m.size - 2 := fun id hid =>
      List.mem_range.mp (hperm.mem_iff.mp (List.mem_flatMap.mpr ⟨merge, hmerge, hid⟩))
    exact ⟨(hlt _ (by simp)).ne, (hlt _ (by simp)).ne⟩
  · -- size_last
    intro merge hlast
    have hlt : merges.length - 1 < merges.length :=
      Nat.sub_one_lt_of_lt (List.length_pos_of_mem (List.mem_of_getLast? hlast))
    rw [List.getLast?_eq_getElem?] at hlast
    obtain ⟨-, -, -, hroot⟩ := h.last_slot hlength (by omega)
    have hid : m.size + (merges.length - 1) = 2 * m.size - 2 := by omega
    rw [hcard _ merge hlast, hid, hroot, Finset.card_range]

end Agglomeration

/-- **What is built from a valid matrix is a binary dendrogram** over its blocks, whatever the
distances are and however they compare. -/
theorem Dendrogram.ofMatrix_isBinary [Scalar α] (linkage : Linkage) (m : ScoreMatrix α)
    (hvalid : m.validate = .ok ()) :
    ∃ tree, ofMatrix linkage m = .ok tree ∧ tree.leaves = m.size ∧ tree.IsBinary ∧
      (m.size = 0 → tree.merges = []) := by
  obtain ⟨merges, members, s, htree, hrun, hlength⟩ := run_ofMatrix linkage hvalid
  refine ⟨_, htree, rfl, hrun.isBinary hlength, ?_⟩
  intro hzero
  have hnil : merges.length = 0 := by omega
  exact List.length_eq_zero_iff.mp hnil

theorem Dendrogram.fourBlocks_isBinary :
    ScoreMatrix.fourBlocks.validate = .ok () ∧
      ∃ tree, ofMatrix .ward ScoreMatrix.fourBlocks = .ok tree ∧ tree.leaves = 4 ∧
        tree.IsBinary := by
  obtain ⟨tree, htree, hleaves, hbinary, -⟩ :=
    ofMatrix_isBinary .ward ScoreMatrix.fourBlocks ScoreMatrix.fourBlocks_valid
  exact ⟨ScoreMatrix.fourBlocks_valid, tree, htree, hleaves, hbinary⟩

end BlockAffinity
