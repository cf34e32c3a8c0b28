import BlockAffinity.Assignment
import BlockAffinity.Proofs.Roster
import Mathlib.Data.Finset.Card
import Mathlib.Data.Finset.Image
import Mathlib.Data.List.Basic

/-!
# BlockAffinity.Proofs.Assignment

**What labels mean.** Numbering classes in the order in which they appear gives two places the same
label exactly where they have the same class (`numberClasses_getElem?_eq_iff`), and an assignment
over different blocks lists the labels as they are given (`get?_ofLabels_eq_some_iff`). So there are
as many clusters as classes (`clusterCount_ofLabels`).
-/

namespace BlockAffinity

/-! ### Numbers of classes -/

/-- Numbering looks classes up in a table that lists each class once, those seen before first. -/
theorem numberClasses_eq_map {seen : List Nat} (hseen : seen.Nodup) (classes : List Nat) :
    ∃ table : List Nat, seen <+: table ∧ (∀ c ∈ classes, c ∈ table) ∧
      numberClasses seen classes = classes.map fun c => table.idxOf c + 1 := by
  induction classes generalizing seen with
  | nil => exact ⟨seen, List.prefix_rfl, by simp, rfl⟩
  | cons c rest ih =>
      cases hfind : seen.findIdx? (· == c) with
      | some i =>
          -- the class has been seen, so it stands in the part of the table that is there already
          obtain ⟨table, ⟨more, rfl⟩, hmem, heq⟩ := ih hseen
          obtain ⟨hlt, hindex⟩ := List.findIdx?_eq_some_iff_findIdx_eq.mp hfind
          have hindex : seen.idxOf c = i := hindex
          have hc : c ∈ seen := List.idxOf_lt_length_iff.mp (by rwa [hindex])
          refine ⟨seen ++ more, List.prefix_append _ _, ?_, ?_⟩
          · intro d hd
            rcases List.mem_cons.mp hd with rfl | hd
            · exact List.mem_append_left _ hc
            · exact hmem d hd
          · rw [numberClasses, hfind, List.map_cons, List.idxOf_append_of_mem hc]
            dsimp only
            rw [heq, hindex]
      | none =>
          -- the class is new and gets the next place
          have hc : c ∉ seen := by
            intro hc
            have hnot := List.findIdx?_eq_none_iff.mp hfind c hc
            simp at hnot
          have hnodup : (seen ++ [c]).Nodup :=
            List.nodup_append.mpr ⟨hseen, by simp, by
              intro a ha b hb
              rw [List.mem_singleton.mp hb]
              intro heq
              subst heq
              exact hc ha⟩
          obtain ⟨table, ⟨more, rfl⟩, hmem, heq⟩ := ih hnodup
          refine ⟨seen ++ [c] ++ more, ⟨[c] ++ more, by simp⟩, ?_, ?_⟩
          · intro d hd
            rcases List.mem_cons.mp hd with rfl | hd
            · simp
            · exact hmem d hd
          · rw [numberClasses, hfind, List.map_cons]
            dsimp only
            rw [heq, List.append_assoc, List.idxOf_append_of_notMem hc]
            simp

theorem length_numberClasses (classes : List Nat) :
    (numberClasses [] classes).length = classes.length := by
  obtain ⟨table, -, -, heq⟩ := numberClasses_eq_map List.nodup_nil classes
  rw [heq, List.length_map]

/-- **Equal labels are equal classes.** -/
theorem numberClasses_getElem?_eq_iff {classes : List Nat} {i j : Nat} (hi : i < classes.length)
    (hj : j < classes.length) :
    (numberClasses [] classes)[i]? = (numberClasses [] classes)[j]? ↔
      classes[i]? = classes[j]? := by
  obtain ⟨table, -, hmem, heq⟩ := numberClasses_eq_map List.nodup_nil classes
  rw [heq, List.getElem?_map, List.getElem?_map, List.getElem?_eq_getElem hi,
    List.getElem?_eq_getElem hj]
  simp only [Option.map_some, Option.some.injEq, Nat.add_right_cancel_iff]
  exact List.idxOf_inj (hmem _ (List.getElem_mem hi))

/-- There are as many labels as classes. -/
theorem card_numberClasses (classes : List Nat) :
    (numberClasses [] classes).toFinset.card = classes.toFinset.card := by
  obtain ⟨table, -, hmem, heq⟩ := numberClasses_eq_map List.nodup_nil classes
  have himage : (classes.map fun c => table.idxOf c + 1).toFinset =
      classes.toFinset.image fun c => table.idxOf c + 1 := by
    ext label
    simp
  rw [heq, himage]
  refine Finset.card_image_of_injOn fun c hc d _ hcd => ?_
  have hc' : c ∈ table := hmem c (List.mem_toFinset.mp hc)
  exact (List.idxOf_inj hc').mp (Nat.add_right_cancel hcd)

theorem length_labelSet (labels : List Nat) : (labelSet labels).length = labels.toFinset.card := by
  have hnodup : (labelSet labels).Nodup := (pairwise_labelSet labels).imp fun h => h.ne
  rw [← List.toFinset_card_of_nodup hnodup]
  congr 1
  ext label
  simp

namespace Assignment

variable {ids : List BlockId} {labels : List Nat}

theorem entries_ofLabels (hids : ids.Nodup) (hlength : ids.length = labels.length) :
    (ofLabels ids labels).entries = ids.zip labels := by
  refine Roster.entries_ofList ?_
  rwa [List.map_fst_zip hlength.le]

theorem ids_ofLabels (hids : ids.Nodup) (hlength : ids.length = labels.length) :
    (ofLabels ids labels).ids = ids := by
  rw [Roster.ids, entries_ofLabels hids hlength, List.map_fst_zip hlength.le]

/-- The label of a block stands at the place of the block. -/
theorem get?_ofLabels_eq_some_iff (hids : ids.Nodup) (hlength : ids.length = labels.length)
    {id : BlockId} {label : Nat} :
    (ofLabels ids labels).get? id = some label ↔
      ∃ i : Nat, ids[i]? = some id ∧ labels[i]? = some label := by
  have hkeys : ((ids.zip labels).map Prod.fst).Nodup := by rwa [List.map_fst_zip hlength.le]
  rw [Roster.get?, entries_ofLabels hids hlength, lookupEntry_eq_some_iff hkeys,
    List.mem_iff_getElem?]
  simp only [List.getElem?_zip_eq_some]

theorem get?_ofLabels (hids : ids.Nodup) (hlength : ids.length = labels.length) {i : Nat}
    {id : BlockId} (hi : ids[i]? = some id) : (ofLabels ids labels).get? id = labels[i]? := by
  have hlt : i < labels.length := hlength ▸ (List.getElem?_eq_some_iff.mp hi).1
  rw [List.getElem?_eq_getElem hlt]
  exact (get?_ofLabels_eq_some_iff hids hlength).mpr ⟨i, hi, List.getElem?_eq_getElem hlt⟩

/-- **As many clusters as different labels.** -/
theorem clusterCount_ofLabels (hids : ids.Nodup) (hlength : ids.length = labels.length) :
    (ofLabels ids labels).clusterCount = labels.toFinset.card := by
  have hlabels : ((ids.zip labels).map fun entry => (entry.2, entry.1)).map Prod.fst = labels := by
    rw [List.map_map]
    exact List.map_snd_zip hlength.ge
  rw [clusterCount, clusters, groupByLabel, List.length_map, entries_ofLabels hids hlength]
  rw [hlabels, length_labelSet]

end Assignment

end BlockAffinity
