import Mathlib
import BlockAffinity.Proofs.ScoreMatrix.Reordering
import BlockAffinity.Proofs.Silhouette.Relabelling

/-!
# BlockAffinity.Proofs.Silhouette.Reordering

**The order of the blocks does not matter**, in exact arithmetic. If the blocks of a matrix come in
another order (`ScoreMatrix.reorder`), so do their labels (`rearranged`), and each cluster is the image
of what it was (`Silhouette.mem_blocksWith_rearranged`). Mean distances are taken over the same values,
so every block keeps its score, and the mean of the scores stays as well (`Silhouette.SameScores`).
Where there is no silhouette there still is none, for a reason of the same kind
(`Silhouette.fails_reorder`).
-/

namespace BlockAffinity

open Scalar

/-! ### Lists in another order -/

/-- The list whose element at place `i` is the element at place `p i`. -/
def rearranged {β : Type} (p : Nat → Nat) (d : β) (xs : List β) : List β :=
  (List.range xs.length).map fun i => xs.getD (p i) d

section rearranged

variable {β γ : Type} {d : β} {e : γ} {xs : List β} {ys : List γ}

@[simp] theorem length_rearranged (p : Nat → Nat) (d : β) (xs : List β) :
    (rearranged p d xs).length = xs.length := by
  simp [rearranged]

-- `p` maps the places of the list to one another
variable {p : Equiv.Perm Nat} (hp : ∀ i, p i < xs.length ↔ i < xs.length)
include hp

theorem getElem?_rearranged (i : Nat) : (rearranged p d xs)[i]? = xs[p i]? := by
  rcases Nat.lt_or_ge i xs.length with hi | hi
  · have hpi : p i < xs.length := (hp i).mpr hi
    simp [rearranged, hi, hpi]
  · have hpi : xs.length ≤ p i := Nat.not_lt.mp (mt (hp i).mp (Nat.not_lt.mpr hi))
    rw [List.getElem?_eq_none hpi, List.getElem?_eq_none]
    rwa [length_rearranged]

theorem perm_rearranged : (rearranged p d xs).Perm xs := by
  have hplaces : ((List.range xs.length).map p).Perm (List.range xs.length) := by
    rw [List.perm_ext_iff_of_nodup (List.nodup_range.map p.injective) List.nodup_range]
    intro j
    rw [List.mem_map]
    constructor
    · rintro ⟨i, hi, rfl⟩
      exact List.mem_range.mpr ((hp i).mpr (List.mem_range.mp hi))
    · intro hj
      refine ⟨p.symm j, List.mem_range.mpr ?_, p.apply_symm_apply j⟩
      rw [← hp, p.apply_symm_apply]
      exact List.mem_range.mp hj
  have hself : (List.range xs.length).map (fun i => xs.getD i d) = xs := by
    refine List.ext_getElem (by simp) fun i hi hi' => ?_
    simp [hi']
  have hmap := hplaces.map fun i => xs.getD i d
  rwa [List.map_map, hself] at hmap

theorem zip_rearranged (hlength : ys.length = xs.length) :
    (rearranged p d xs).zip (rearranged p e ys) = rearranged p (d, e) (xs.zip ys) := by
  refine List.ext_getElem? fun i => Option.ext fun pair => ?_
  have hp' : ∀ i, p i < ys.length ↔ i < ys.length := by rwa [hlength]
  have hpzip : ∀ i, p i < (xs.zip ys).length ↔ i < (xs.zip ys).length := by
    rwa [List.length_zip, hlength, Nat.min_self]
  rw [List.getElem?_zip_eq_some, getElem?_rearranged hp, getElem?_rearranged hp',
    getElem?_rearranged hpzip, List.getElem?_zip_eq_some]

end rearranged

/-- Faults of one kind. Which block or which entry is named depends on the order of the blocks. -/
def Fault.SameKind {α : Type} : Fault α → Fault α → Prop
  | .invalidMatrix .., .invalidMatrix .. => True
  | .unlabelled _, .unlabelled _ => True
  | fault, found => found = fault

/-- **Values by block in another order**: an id that is listed once keeps its value. -/
theorem Roster.get?_ofList_perm {β : Type} {entries entries' : List (BlockId × β)} {id : BlockId}
    (h : entries'.Perm entries) (hcount : (entries.map Prod.fst).count id ≤ 1) :
    (Roster.ofList entries').get? id = (Roster.ofList entries).get? id := by
  have hreverse {list : List (BlockId × β)} (hlist : list.Perm entries) :
      (list.reverse.map Prod.fst).count id ≤ 1 := by
    rwa [((list.reverse_perm.trans hlist).map Prod.fst).count_eq]
  ext value
  rw [get?_ofList, get?_ofList, lookupEntry_eq_some_iff_of_count (hreverse h),
    lookupEntry_eq_some_iff_of_count (hreverse (.refl _)), List.mem_reverse, List.mem_reverse,
    h.mem_iff]

namespace Silhouette

open ExactField

variable {K : Type} [ExactField K] {m : ScoreMatrix K} {labels : List Nat} {p : Equiv.Perm Nat}

/-! ### Clusters in another order -/

section clusters

variable {i own : Nat}

theorem mem_blocksWith_rearranged (hp : ∀ i, p i < labels.length ↔ i < labels.length) :
    i ∈ blocksWith (rearranged p 0 labels) own ↔ p i ∈ blocksWith labels own := by
  rw [mem_blocksWith, mem_blocksWith, getElem?_rearranged hp]

/-- Clusters move with their blocks. -/
theorem map_blocksWith (hp : ∀ i, p i < labels.length ↔ i < labels.length) (own : Nat) :
    (blocksWith (rearranged p 0 labels) own).map p.toEmbedding = blocksWith labels own := by
  ext j
  rw [Finset.mem_map]
  constructor
  · rintro ⟨i, hi, rfl⟩
    exact (mem_blocksWith_rearranged hp).mp hi
  · intro hj
    refine ⟨p.symm j, (mem_blocksWith_rearranged hp).mpr ?_, p.apply_symm_apply j⟩
    rwa [p.apply_symm_apply]

/-- Mean distances are taken over the same values. -/
theorem meanDistance_reorder (hi : i < m.size) {A : Finset Nat} (hA : A ⊆ Finset.range m.size) :
    meanDistance (m.reorder p) i A = meanDistance m (p i) (A.map p.toEmbedding) := by
  have hcells : ∑ j ∈ A, (m.reorder p).cell i j = ∑ j ∈ A, m.cell (p i) (p j) :=
    Finset.sum_congr rfl fun j hj => ScoreMatrix.cell_reorder hi (Finset.mem_range.mp (hA hj))
  rw [meanDistance, meanDistance, Finset.card_map, Finset.sum_map, hcells]
  rfl

variable (hp : ∀ i, p i < m.size ↔ i < m.size) (hlength : labels.length = m.size) (hi : i < m.size)
include hp hlength hi

theorem withinDistance_reorder : withinDistance (m.reorder p) (rearranged p 0 labels) i own =
    withinDistance m labels (p i) own := by
  have hsubset : (blocksWith (rearranged p 0 labels) own).erase i ⊆ Finset.range m.size := by
    refine (Finset.erase_subset _ _).trans (blocksWith_subset ?_)
    rw [length_rearranged, hlength]
  have hothers : ((blocksWith (rearranged p 0 labels) own).erase i).map p.toEmbedding =
      (blocksWith labels own).erase (p i) := by
    rw [Finset.map_erase, map_blocksWith (by rwa [hlength])]
    rfl
  rw [withinDistance, withinDistance, meanDistance_reorder hi hsubset, ← hothers]
  exact if_congr Finset.map_eq_empty.symm rfl rfl

theorem otherDistances_reorder : otherDistances (m.reorder p) (rearranged p 0 labels) i own =
    otherDistances m labels (p i) own := by
  have hplaces : ∀ i, p i < labels.length ↔ i < labels.length := by rwa [hlength]
  have hmean (label : Nat) :
      meanDistance (m.reorder p) i (blocksWith (rearranged p 0 labels) label) =
        meanDistance m (p i) (blocksWith labels label) := by
    rw [meanDistance_reorder hi (blocksWith_subset (by rw [length_rearranged, hlength])),
      map_blocksWith hplaces]
  ext x
  simp only [otherDistances, Set.mem_ofPred_eq, (perm_rearranged hplaces).mem_iff, hmean]

end clusters

/-! ### Scores -/

section scores

variable (hp : ∀ i, p i < m.size ↔ i < m.size) (hlength : labels.length = m.size)
  (hmany : 2 ≤ labels.toFinset.card)
include hp hlength hmany

theorem coefficient_reorder {i own : Nat} (hi : i < m.size) (hown : labels[p i]? = some own) :
    coefficient ((m.reorder p).cell i) i own (groupByLabel (rearranged p 0 labels).zipIdx) =
      coefficient (m.cell (p i)) (p i) own (groupByLabel labels.zipIdx) := by
  have hplaces : ∀ i, p i < labels.length ↔ i < labels.length := by rwa [hlength]
  have hmany' : 2 ≤ (rearranged p 0 labels).toFinset.card := by
    rwa [List.toFinset_eq_of_perm _ _ (perm_rearranged hplaces)]
  obtain ⟨b, hb, hleast⟩ := nearestOther?_isLeast m hmany (p i) own
  obtain ⟨b', hb', hleast'⟩ := nearestOther?_isLeast (m.reorder p) hmany' i own
  rw [otherDistances_reorder hp hlength hi] at hleast'
  have hown' : (rearranged p 0 labels)[i]? = some own := by rw [getElem?_rearranged hplaces, hown]
  rw [coefficient_eq_ofDistances hown' hb', coefficient_eq_ofDistances hown hb,
    withinDistance_reorder hp hlength hi, hleast'.unique hleast]

/-- **Every block keeps its score.** -/
theorem scoreList_reorder : scoreList (m.reorder p) (rearranged p 0 labels) =
    rearranged p 0 (scoreList m labels) := by
  have hplaces : ∀ i, p i < labels.length ↔ i < labels.length := by rwa [hlength]
  have hscores : ∀ i, p i < (scoreList m labels).length ↔ i < (scoreList m labels).length := by
    rwa [length_scoreList]
  refine List.ext_getElem? fun i => ?_
  rw [getElem?_rearranged hscores, getElem?_scoreList_eq_map, getElem?_scoreList_eq_map,
    getElem?_rearranged hplaces]
  cases hown : labels[p i]? with
  | none => rfl
  | some own =>
      have hi : i < m.size := (hp i).mp (hlength ▸ (List.getElem?_eq_some_iff.mp hown).1)
      rw [Option.map_some, Option.map_some, coefficient_reorder hp hlength hmany hi hown]

end scores

/-! ### Silhouettes -/

/-- **The same scores in another order.** The block at each place has the score of the block it is, and
so has every id that names one block only. -/
structure SameScores (m : ScoreMatrix K) (p : Nat → Nat) (silhouette reordered : Silhouette K) :
    Prop where
  places : ∃ scores : List K, scores.length = m.size ∧
    silhouette.scores = .ofList (m.ids.zip scores) ∧
    reordered.scores = .ofList ((m.reorder p).ids.zip (rearranged p 0 scores))
  blocks : ∀ id, m.ids.count id ≤ 1 → reordered.scores.get? id = silhouette.scores.get? id
  mean : reordered.mean = silhouette.mean

theorem ids_reorder (m : ScoreMatrix K) (p : Nat → Nat) :
    (m.reorder p).ids = rearranged p default m.ids :=
  List.map_map

theorem ids_reorder_eq_nil_iff {p : Nat → Nat} : (m.reorder p).ids = [] ↔ m.ids = [] := by
  rw [← List.length_eq_zero_iff, ← List.length_eq_zero_iff]
  exact Eq.congr_left ScoreMatrix.size_reorder

section silhouettes

variable {assignment : Assignment} (hp : ∀ i, p i < m.size ↔ i < m.size)
include hp

theorem ofLabels_reorder (hlength : labels.length = m.size) {silhouette : Silhouette K}
    (h : ofLabels m labels = .ok silhouette) :
    ∃ reordered, ofLabels (m.reorder p) (rearranged p 0 labels) = .ok reordered ∧
      SameScores m p silhouette reordered := by
  have hplaces : ∀ i, p i < labels.length ↔ i < labels.length := by rwa [hlength]
  have hcount : (scoreList m labels).length = m.size := (length_scoreList m labels).trans hlength
  have hscores : ∀ i, p i < (scoreList m labels).length ↔ i < (scoreList m labels).length := by
    rwa [hcount]
  have hmany : 2 ≤ labels.toFinset.card := by
    by_contra hfew
    have herror : ofLabels m labels = .error _ := ofLabels_eq_error_iff.mpr ⟨Nat.not_le.mp hfew, rfl⟩
    rw [h] at herror
    cases herror
  have hmany' : 2 ≤ (rearranged p 0 labels).toFinset.card := by
    rwa [List.toFinset_eq_of_perm _ _ (perm_rearranged hplaces)]
  rw [ofLabels_eq_ok hmany] at h
  obtain rfl := Except.ok.inj h
  refine ⟨_, ofLabels_eq_ok hmany', ⟨scoreList m labels, hcount, rfl, ?_⟩, fun id hid => ?_, ?_⟩
  · rw [scoreList_reorder hp hlength hmany]
  · have hzip : ∀ i, p i < (m.ids.zip (scoreList m labels)).length ↔
        i < (m.ids.zip (scoreList m labels)).length := by
      rwa [List.length_zip, hcount, ScoreMatrix.size, Nat.min_self]
    rw [scoreList_reorder hp hlength hmany, ids_reorder, zip_rearranged (e := 0) hp hcount]
    refine Roster.get?_ofList_perm (perm_rearranged hzip) ?_
    rwa [List.map_fst_zip hcount.ge]
  · rw [scoreList_reorder hp hlength hmany, length_rearranged, ExactField.sum_eq, ExactField.sum_eq,
      (perm_rearranged hscores).sum_eq]

theorem map_get?_reorder (h : m.ids.map assignment.get? = labels.map some) :
    (m.reorder p).ids.map assignment.get? = (rearranged p 0 labels).map some := by
  have hplaces : ∀ i, p i < labels.length ↔ i < labels.length := by rwa [length_eq_of_labels h]
  refine List.ext_getElem? fun i => ?_
  have hplace := congrArg (fun list => list[p i]?) h
  simp only [List.getElem?_map] at hplace
  rw [List.getElem?_map, List.getElem?_map, ids_reorder, getElem?_rearranged hp,
    getElem?_rearranged hplaces, hplace]

/-- **Reordering the blocks keeps the silhouette**: every score, and the mean. -/
theorem ofAssignment_reorder {silhouette : Silhouette K}
    (h : ofAssignment m assignment = .ok silhouette) :
    ∃ reordered, ofAssignment (m.reorder p) assignment = .ok reordered ∧
      SameScores m p silhouette reordered := by
  have hnone : ∀ fault, ¬ Fails m assignment fault := by
    intro fault hfails
    have herror := ofAssignment_eq_error_iff.mpr hfails
    rw [h] at herror
    cases herror
  obtain ⟨hvalid, labels, hlabels, -, hof⟩ := exists_labels_of_not_fails hnone
  obtain ⟨reordered, hok, hsame⟩ :=
    ofLabels_reorder hp (length_eq_of_labels hlabels) (hof.symm.trans h)
  refine ⟨reordered, ?_, hsame⟩
  have hids : (m.reorder p).ids ≠ [] := fun hnil =>
    hnone _ (.noBlocks hvalid (ids_reorder_eq_nil_iff.mp hnil))
  rw [ofAssignment_of_valid (ScoreMatrix.reorder_valid (fun i => (hp i).mpr) hvalid) hids,
    labelsOf?_eq_ok_iff.mpr (map_get?_reorder hp hlabels)]
  exact hok

theorem perm_ids_reorder : (m.reorder p).ids.Perm m.ids := by
  rw [ids_reorder]
  exact perm_rearranged hp

/-- **Reordering the blocks keeps the kind of fault.** -/
theorem fails_reorder (hshape : m.WellShaped) {fault : Fault K} (h : Fails m assignment fault) :
    ∃ found, Fails (m.reorder p) assignment found ∧ fault.SameKind found := by
  have hvalid' (hvalid : m.validate = .ok ()) : (m.reorder p).validate = .ok () :=
    ScoreMatrix.reorder_valid (fun i => (hp i).mpr) hvalid
  cases h with
  | invalid hvalid =>
      obtain ⟨i, j, defect, rfl⟩ := ScoreMatrix.exists_of_validate_eq_error hvalid
      cases hfound : (m.reorder p).validate with
      | ok _ =>
          have hplaces : ∀ j < m.size, ∃ i < m.size, p i = j := fun j hj =>
            ⟨p.symm j, by rwa [← hp, p.apply_symm_apply], p.apply_symm_apply j⟩
          rw [ScoreMatrix.valid_of_reorder hshape hplaces hfound] at hvalid
          cases hvalid
      | error found =>
          obtain ⟨i', j', defect', rfl⟩ := ScoreMatrix.exists_of_validate_eq_error hfound
          exact ⟨_, .invalid hfound, trivial⟩
  | noBlocks hvalid hids =>
      exact ⟨_, .noBlocks (hvalid' hvalid) (ids_reorder_eq_nil_iff.mpr hids), rfl⟩
  | @unlabelled before after id hvalid hids hbefore hid =>
      cases hlabels : labelsOf? (α := K) assignment (m.reorder p).ids with
      | ok labels =>
          -- the block without a label is still among the blocks
          have hmem : id ∈ (m.reorder p).ids := by
            rw [(perm_ids_reorder hp).mem_iff, hids]
            exact List.mem_append_right _ List.mem_cons_self
          have hnone : none ∈ labels.map some := by
            rw [← labelsOf?_eq_ok_iff.mp hlabels, ← hid]
            exact List.mem_map_of_mem hmem
          simp at hnone
      | error found =>
          obtain ⟨before', id', after', hids', hbefore', hid', rfl⟩ := labelsOf?_eq_error_iff.mp hlabels
          exact ⟨_, .unlabelled (hvalid' hvalid) hids' hbefore' hid', trivial⟩
  | @tooFewClusters labels hvalid hids hlabels hfew =>
      have hplaces : ∀ i, p i < labels.length ↔ i < labels.length := by
        rwa [length_eq_of_labels hlabels]
      have hset : (rearranged p 0 labels).toFinset = labels.toFinset :=
        List.toFinset_eq_of_perm _ _ (perm_rearranged hplaces)
      have hfails := Fails.tooFewClusters (hvalid' hvalid) (mt ids_reorder_eq_nil_iff.mp hids)
        (map_get?_reorder hp hlabels) (by rwa [hset])
      rw [hset, ScoreMatrix.size_reorder] at hfails
      exact ⟨_, hfails, rfl⟩

end silhouettes

/-- **A silhouette depends on the partition alone.** Renaming the labels changes nothing, with doubles
and in exact arithmetic. In exact arithmetic reordering the blocks keeps every score and the mean, or
else the kind of fault. -/
theorem ofAssignment_of_partition :
    (∀ (m : ScoreMatrix Float) (assignment : Assignment) (f : Nat → Nat),
      Set.InjOn f { label | label ∈ assignment.values } →
      ofAssignment m (assignment.map f) = ofAssignment m assignment) ∧
    ∀ (K : Type) [ExactField K] (m : ScoreMatrix K) (assignment : Assignment),
      (∀ f : Nat → Nat, Set.InjOn f { label | label ∈ assignment.values } →
        ofAssignment m (assignment.map f) = ofAssignment m assignment) ∧
      ∀ p : Equiv.Perm Nat, (∀ i, p i < m.size ↔ i < m.size) →
        (∀ silhouette, ofAssignment m assignment = .ok silhouette →
          ∃ reordered, ofAssignment (m.reorder p) assignment = .ok reordered ∧
            SameScores m p silhouette reordered) ∧
        (m.WellShaped → ∀ fault, ofAssignment m assignment = .error fault →
          ∃ found, ofAssignment (m.reorder p) assignment = .error found ∧ fault.SameKind found) := by
  refine ⟨fun m assignment f hf => ofAssignment_map hf, fun K _ m assignment =>
    ⟨fun f hf => ofAssignment_map hf, fun p hp => ⟨fun silhouette h => ofAssignment_reorder hp h, ?_⟩⟩⟩
  intro hshape fault h
  obtain ⟨found, hfails, hkind⟩ := fails_reorder hp hshape (ofAssignment_eq_error_iff.mp h)
  exact ⟨found, ofAssignment_eq_error_iff.mpr hfails, hkind⟩

/-- Four blocks in three clusters. -/
def threeClusters : Assignment := .ofLabels ScoreMatrix.fourBlocks.ids [1, 1, 2, 3]

/-- Clusters that are listed backwards, and three blocks of which the first and the last change
places, with and without a label for the last. -/
theorem twoAndOne_of_partition :
    (Set.InjOn (5 - ·) { label | label ∈ threeClusters.values } ∧
      ofAssignment ScoreMatrix.fourBlocks (threeClusters.map (5 - ·)) =
        ofAssignment ScoreMatrix.fourBlocks threeClusters) ∧
    (∀ i, Equiv.swap 0 2 i < twoAndOne.size ↔ i < twoAndOne.size) ∧ twoAndOne.WellShaped ∧
    (∃ silhouette reordered,
      ofAssignment twoAndOne (.ofLabels twoAndOne.ids [1, 1, 2]) = .ok silhouette ∧
      ofAssignment (twoAndOne.reorder (Equiv.swap 0 2)) (.ofLabels twoAndOne.ids [1, 1, 2]) =
        .ok reordered ∧
      SameScores twoAndOne (Equiv.swap 0 2) silhouette reordered ∧
      reordered.scores.entries = [(⟨"c"⟩, 1), (⟨"b"⟩, 2 / 3), (⟨"a"⟩, 3 / 4)]) ∧
    ∃ fault found,
      ofAssignment twoAndOne (.ofLabels [⟨"a"⟩, ⟨"b"⟩] [1, 2]) = .error fault ∧
      ofAssignment (twoAndOne.reorder (Equiv.swap 0 2)) (.ofLabels [⟨"a"⟩, ⟨"b"⟩] [1, 2]) =
        .error found ∧
      fault.SameKind found := by
  have hinj : Set.InjOn (5 - ·) { label | label ∈ threeClusters.values } := by
    have hall : ∀ i ∈ threeClusters.values, ∀ j ∈ threeClusters.values, 5 - i = 5 - j → i = j := by
      decide +kernel
    exact fun i hi j hj h => hall i hi j hj h
  have hp : ∀ i, Equiv.swap 0 2 i < twoAndOne.size ↔ i < twoAndOne.size := by
    intro i
    have hsize : twoAndOne.size = 3 := rfl
    rw [hsize, Equiv.swap_apply_def]
    split_ifs <;> omega
  have hshape : twoAndOne.WellShaped := rfl
  have hexact := (ofAssignment_of_partition.2 ℚ twoAndOne ·)
  refine ⟨⟨hinj, ofAssignment_of_partition.1 _ _ _ hinj⟩, hp, hshape, ?_, ?_⟩
  · cases h : ofAssignment twoAndOne (.ofLabels twoAndOne.ids [1, 1, 2]) with
    | error fault =>
        have hok : (ofAssignment twoAndOne (.ofLabels twoAndOne.ids [1, 1, 2])).isOk = true := by
          decide +kernel
        rw [h] at hok
        cases hok
    | ok silhouette =>
        obtain ⟨reordered, hreordered, hsame⟩ := ((hexact _).2 _ hp).1 silhouette h
        refine ⟨silhouette, reordered, rfl, hreordered, hsame, ?_⟩
        have hentries : (ofAssignment (twoAndOne.reorder (Equiv.swap 0 2))
            (.ofLabels twoAndOne.ids [1, 1, 2])).toOption.map (fun s => s.scores.entries) =
              some [(⟨"c"⟩, 1), (⟨"b"⟩, 2 / 3), (⟨"a"⟩, 3 / 4)] := by
          decide +kernel
        rw [hreordered] at hentries
        exact Option.some.inj hentries
  · cases h : ofAssignment twoAndOne (.ofLabels [⟨"a"⟩, ⟨"b"⟩] [1, 2]) with
    | ok silhouette =>
        have herror : (ofAssignment twoAndOne (.ofLabels [⟨"a"⟩, ⟨"b"⟩] [1, 2])).isOk = false := by
          decide +kernel
        rw [h] at herror
        cases herror
    | error fault =>
        obtain ⟨found, hfound, hkind⟩ := ((hexact _).2 _ hp).2 hshape fault h
        exact ⟨fault, found, rfl, hfound, hkind⟩

end Silhouette

end BlockAffinity
