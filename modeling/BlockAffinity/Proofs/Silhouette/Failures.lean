import BlockAffinity.Silhouette
import BlockAffinity.Proofs.Assignment
import BlockAffinity.Proofs.Except

/-!
# BlockAffinity.Proofs.Silhouette.Failures

**When there is no silhouette.** The checks are made one after the other, and the first that fails
decides: `Silhouette.Fails` lists them, each with what the earlier ones have found. There is no other
way to fail (`Silhouette.ofAssignment_eq_error_iff`), with any scalars.
-/

namespace BlockAffinity

variable {α : Type} {labels : List Nat} {label : Nat}

/-! ### Clusters of indices -/

/-- The indices that have a label, in ascending order. -/
def indicesWith (labels : List Nat) (label : Nat) : List Nat :=
  (labels.zipIdx.filter fun entry => entry.1 == label).map Prod.snd

theorem mem_indicesWith {i : Nat} : i ∈ indicesWith labels label ↔ labels[i]? = some label := by
  simp only [indicesWith, List.mem_map, List.mem_filter, Prod.exists, exists_eq_right, beq_iff_eq,
    List.mem_zipIdx_iff_getElem?]

theorem nodup_indicesWith : (indicesWith labels label).Nodup := by
  have hsublist : (indicesWith labels label).Sublist (labels.zipIdx.map Prod.snd) :=
    List.filter_sublist.map Prod.snd
  rw [List.zipIdx_map_snd] at hsublist
  exact List.Nodup.sublist hsublist List.nodup_range'

/-- Grouping lists the indices under each label. -/
theorem groupByLabel_zipIdx (labels : List Nat) :
    groupByLabel labels.zipIdx =
      (labelSet labels).map fun label => (label, indicesWith labels label) := by
  rw [groupByLabel, List.zipIdx_map_fst]
  rfl

theorem mem_groupByLabel_zipIdx {cluster : Nat × List Nat} :
    cluster ∈ groupByLabel labels.zipIdx ↔
      cluster.1 ∈ labels ∧ cluster.2 = indicesWith labels cluster.1 := by
  rw [groupByLabel_zipIdx, List.mem_map]
  constructor
  · rintro ⟨label, hlabel, rfl⟩
    exact ⟨mem_labelSet.mp hlabel, rfl⟩
  · exact fun ⟨hlabel, heq⟩ => ⟨cluster.1, mem_labelSet.mpr hlabel, Prod.ext rfl heq.symm⟩

theorem length_groupByLabel_zipIdx (labels : List Nat) :
    (groupByLabel labels.zipIdx).length = labels.toFinset.card := by
  rw [groupByLabel_zipIdx, List.length_map, length_labelSet]

namespace Silhouette

/-! ### Labels in matrix order -/

variable {assignment : Assignment} {ids : List BlockId}

theorem labelsOf?_eq_ok_iff :
    labelsOf? (α := α) assignment ids = .ok labels ↔ ids.map assignment.get? = labels.map some := by
  rw [labelsOf?, mapM_eq_ok_iff]
  induction ids generalizing labels with
  | nil => cases labels <;> simp
  | cons id rest ih =>
      cases labels with
      | nil => simp
      | cons label labels =>
          rw [List.map_cons, List.map_cons, List.map_cons, List.map_cons, List.cons.injEq,
            List.cons.injEq, ih]
          cases assignment.get? id <;> simp

theorem length_eq_of_labels (h : ids.map assignment.get? = labels.map some) :
    labels.length = ids.length := by
  simpa using (congrArg List.length h).symm

/-- The first block without a label is named. -/
theorem labelsOf?_eq_error_iff {fault : Fault α} :
    labelsOf? assignment ids = .error fault ↔ ∃ before id after, ids = before ++ id :: after ∧
      (∀ u ∈ before, assignment.get? u ≠ none) ∧ assignment.get? id = none ∧
      fault = .unlabelled id := by
  rw [labelsOf?, mapM_eq_error_iff]
  refine exists_congr fun before => exists_congr fun id => exists_congr fun after =>
    and_congr_right fun _ => and_congr (forall₂_congr fun u _ => ?_) ?_
  · cases assignment.get? u <;> simp
  · cases assignment.get? id <;> simp [eq_comm]

/-! ### All ways to fail -/

variable [Scalar α] {m : ScoreMatrix α} {fault : Fault α}

theorem ofLabels_eq_error_iff :
    ofLabels m labels = .error fault ↔ labels.toFinset.card < 2 ∧
      fault = .undefinedSilhouette (.tooFewClusters labels.toFinset.card m.size) := by
  rw [ofLabels, length_groupByLabel_zipIdx]
  dsimp only
  split
  · rename_i hfew
    rw [Except.error.injEq, eq_comm]
    exact (and_iff_right hfew).symm
  · rename_i hmany
    exact iff_of_false (fun h => nomatch h) fun h => hmany h.1

/-- Why there is no silhouette. Each check is reached by what passes those before it. -/
inductive Fails (m : ScoreMatrix α) (assignment : Assignment) : Fault α → Prop
  /-- The matrix is not valid. -/
  | invalid {fault : Fault α} (hvalid : m.validate = .error fault) : Fails m assignment fault
  /-- There are no blocks. -/
  | noBlocks (hvalid : m.validate = .ok ()) (hempty : m.ids = []) :
      Fails m assignment (.undefinedSilhouette .noBlocks)
  /-- This is the first block without a label. -/
  | unlabelled {before after : List BlockId} {id : BlockId} (hvalid : m.validate = .ok ())
      (hids : m.ids = before ++ id :: after) (hbefore : ∀ u ∈ before, assignment.get? u ≠ none)
      (hid : assignment.get? id = none) : Fails m assignment (.unlabelled id)
  /-- The labels of the blocks do not differ; labels of other blocks do not count. -/
  | tooFewClusters {labels : List Nat} (hvalid : m.validate = .ok ()) (hids : m.ids ≠ [])
      (hlabels : m.ids.map assignment.get? = labels.map some) (hfew : labels.toFinset.card < 2) :
      Fails m assignment
        (.undefinedSilhouette (.tooFewClusters labels.toFinset.card m.size))

/-- With a valid matrix of at least one block it is the labels that decide. -/
theorem ofAssignment_of_valid (hvalid : m.validate = .ok ()) (hids : m.ids ≠ []) :
    ofAssignment m assignment = labelsOf? assignment m.ids >>= ofLabels m := by
  have hempty : m.isEmpty = false := List.isEmpty_eq_false_iff.mpr hids
  rw [ofAssignment, hvalid, hempty]
  rfl

/-- **The silhouette fails in the listed cases only**, with the fault of the first check that fails. -/
theorem ofAssignment_eq_error_iff :
    ofAssignment m assignment = .error fault ↔ Fails m assignment fault := by
  constructor
  · intro h
    cases hvalid : m.validate with
    | error found =>
        rw [ofAssignment, hvalid] at h
        cases h
        exact .invalid hvalid
    | ok _ =>
        by_cases hids : m.ids = []
        · have hempty : m.isEmpty = true := List.isEmpty_iff.mpr hids
          rw [ofAssignment, hvalid, hempty] at h
          cases h
          exact .noBlocks hvalid hids
        · rw [ofAssignment_of_valid hvalid hids, bind_eq_error_iff] at h
          rcases h with hlabels | ⟨labels, hlabels, h⟩
          · obtain ⟨before, id, after, heq, hbefore, hid, rfl⟩ := labelsOf?_eq_error_iff.mp hlabels
            exact .unlabelled hvalid heq hbefore hid
          · obtain ⟨hfew, rfl⟩ := ofLabels_eq_error_iff.mp h
            exact .tooFewClusters hvalid hids (labelsOf?_eq_ok_iff.mp hlabels) hfew
  · intro h
    cases h with
    | invalid hvalid =>
        rw [ofAssignment, hvalid]
        rfl
    | noBlocks hvalid hids =>
        have hempty : m.isEmpty = true := List.isEmpty_iff.mpr hids
        rw [ofAssignment, hvalid, hempty]
        rfl
    | unlabelled hvalid heq hbefore hid =>
        have hids : m.ids ≠ [] := by
          rw [heq]
          exact List.append_ne_nil_of_right_ne_nil _ (List.cons_ne_nil _ _)
        rw [ofAssignment_of_valid hvalid hids, bind_eq_error_iff]
        exact .inl (labelsOf?_eq_error_iff.mpr ⟨_, _, _, heq, hbefore, hid, rfl⟩)
    | tooFewClusters hvalid hids hlabels hfew =>
        rw [ofAssignment_of_valid hvalid hids, bind_eq_error_iff]
        exact .inr ⟨_, labelsOf?_eq_ok_iff.mpr hlabels, ofLabels_eq_error_iff.mpr ⟨hfew, rfl⟩⟩

/-- **In all other cases** the blocks have at least two labels, and there is a silhouette. -/
theorem exists_labels_of_not_fails (h : ∀ fault, ¬ Fails m assignment fault) :
    m.validate = .ok () ∧ ∃ labels, m.ids.map assignment.get? = labels.map some ∧
      2 ≤ labels.toFinset.card ∧ ofAssignment m assignment = ofLabels m labels := by
  have hvalid : m.validate = .ok () := by
    cases hvalid : m.validate with
    | error fault => exact absurd (.invalid hvalid) (h fault)
    | ok _ => rfl
  have hids : m.ids ≠ [] := fun hempty => h _ (.noBlocks hvalid hempty)
  cases hlabels : labelsOf? (α := α) assignment m.ids with
  | error fault =>
      obtain ⟨before, id, after, heq, hbefore, hid, -⟩ := labelsOf?_eq_error_iff.mp hlabels
      exact absurd (.unlabelled hvalid heq hbefore hid) (h _)
  | ok labels =>
      have hmap := labelsOf?_eq_ok_iff.mp hlabels
      refine ⟨hvalid, labels, hmap, ?_, ?_⟩
      · by_contra hfew
        exact h _ (.tooFewClusters hvalid hids hmap (Nat.not_le.mp hfew))
      · rw [ofAssignment_of_valid hvalid hids, hlabels]
        rfl

end Silhouette

end BlockAffinity
