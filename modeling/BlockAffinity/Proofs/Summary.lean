import BlockAffinity.Proofs.Assignment
import BlockAffinity.Proofs.Lists
import BlockAffinity.Summary
import Mathlib.Data.Finset.Union
import Mathlib.Data.List.Nodup
import Mathlib.Data.List.Perm.Basic

/-!
# BlockAffinity.Proofs.Summary

**What clusters and their descriptions say.** The clusters of an assignment are the blocks with each
label in turn, in the order in which they are listed (`Assignment.clusters_eq`). So each block is in
exactly one cluster (`Assignment.flatMap_members_perm`, `Assignment.disjoint_members`). A
description counts the tokens of all members together, each of them once (`distinctCount_eq_card`).
-/

namespace BlockAffinity

/-! ### Clusters -/

namespace Assignment

/-- The blocks with a label, in order. -/
def members (a : Assignment) (label : Nat) : List BlockId :=
  a.ids.filter fun id => a.get? id == some label

/-- **Clusters are the blocks with each label**, the labels in ascending order. -/
theorem clusters_eq (a : Assignment) :
    a.clusters = (labelSet a.values).map fun label => (label, a.members label) := by
  have hlabels : (a.entries.map fun entry => (entry.2, entry.1)).map Prod.fst = a.values := by
    rw [List.map_map]
    rfl
  rw [clusters, groupByLabel, hlabels]
  refine List.map_congr_left fun label _ => Prod.ext rfl ?_
  rw [members, Roster.ids, List.filter_map, List.filter_map, List.map_map]
  refine congrArg (List.map Prod.fst) (List.filter_congr fun entry hentry => ?_)
  -- an entry has the label that is looked up for its block
  have hget : a.get? entry.1 = some entry.2 := Roster.mem_entries_iff.mp hentry
  rw [Function.comp_apply, Function.comp_apply, hget]
  rfl

variable {a : Assignment} {id : BlockId} {label other : Nat}

theorem mem_members_iff : id ∈ a.members label ↔ a.get? id = some label := by
  rw [members, List.mem_filter, beq_iff_eq, Roster.mem_ids_iff]
  constructor
  · exact fun h => h.2
  · exact fun h => ⟨⟨label, h⟩, h⟩

theorem members_ne_nil (h : label ∈ a.values) : a.members label ≠ [] := by
  obtain ⟨id, hid⟩ := Roster.mem_values_iff.mp h
  exact List.ne_nil_of_mem (mem_members_iff.mpr hid)

/-- No block is in two clusters. -/
theorem disjoint_members (h : label ≠ other) : (a.members label).Disjoint (a.members other) := by
  intro id hid hother
  rw [mem_members_iff] at hid hother
  exact h (Option.some.inj (hid.symm.trans hother))

/-- **The clusters together have every block**, and each block once. -/
theorem flatMap_members_perm (a : Assignment) :
    ((labelSet a.values).flatMap a.members).Perm a.ids := by
  have hnodup : ((labelSet a.values).flatMap a.members).Nodup := by
    refine List.nodup_flatMap.mpr ⟨fun label _ => a.distinct.filter _, ?_⟩
    exact (pairwise_labelSet a.values).imp fun h => disjoint_members h.ne
  refine (List.perm_ext_iff_of_nodup hnodup a.distinct).mpr fun id => ?_
  rw [List.mem_flatMap, show (id ∈ a.entries.map Prod.fst) = (id ∈ a.ids) from rfl,
    Roster.mem_ids_iff]
  constructor
  · rintro ⟨label, -, hid⟩
    exact ⟨label, mem_members_iff.mp hid⟩
  · rintro ⟨label, hid⟩
    exact ⟨label, mem_labelSet.mpr (Roster.mem_values_iff.mpr ⟨id, hid⟩), mem_members_iff.mpr hid⟩

theorem clusterCount_eq (a : Assignment) : a.clusterCount = (labelSet a.values).length := by
  rw [clusterCount, clusters_eq, List.length_map]

end Assignment

/-! ### Descriptions -/

namespace ClusterSummary

variable {α : Type}

/-- The tokens that a block uses in a role; a block without a profile uses none. -/
def blockTokens (profiles : Profiles α) (role : Role) (id : BlockId) : Finset Token :=
  ((profiles.get? id).elim [] fun profile => (profile.get role).tokens).toFinset

/-- **Every token of the members counts once.** -/
theorem distinctCount_eq_card (profiles : Profiles α) (role : Role) (members : List BlockId) :
    distinctCount profiles role members =
      (members.toFinset.biUnion (blockTokens profiles role)).card := by
  rw [distinctCount, ← List.toFinset_card_of_nodup (nodup_eraseDups _)]
  congr 1
  ext token
  simp only [List.mem_toFinset, List.mem_eraseDups, tokensOf, List.mem_flatMap, Finset.mem_biUnion,
    blockTokens]
  refine exists_congr fun id => and_congr_right fun _ => ?_
  cases profiles.get? id <;> rfl

theorem distinctTokens_ofMembers (profiles : Profiles α) (label : Nat) (members : List BlockId)
    (role : Role) :
    (ofMembers profiles label members).distinctTokens.get role =
      distinctCount profiles role members := by
  cases role <;> rfl

/-- The descriptions of an assignment, one for each label. -/
theorem ofAssignment_eq (a : Assignment) (profiles : Profiles α) :
    ofAssignment a profiles =
      (labelSet a.values).map fun label => ofMembers profiles label (a.members label) := by
  rw [ofAssignment, Assignment.clusters_eq, List.map_map]
  rfl

end ClusterSummary

end BlockAffinity
