import BlockAffinity.Proofs.Silhouette.Scores

/-!
# BlockAffinity.Proofs.Silhouette.Relabelling

**The names of the clusters do not matter.** Renaming the labels lets the clusters come in another
order, but each of them keeps its members (`indicesWith_map`). So the mean distances of a block to the
other clusters are the same values in another order, and the least of them can differ by the sign of a
zero at most, which no coefficient shows (`Silhouette.ofDistances_congr`). The whole result stays as it
is, with doubles too (`Silhouette.ofAssignment_map`).
-/

namespace BlockAffinity

open Scalar

/-! ### Renamed labels -/

section labels

variable {labels : List Nat} {f : Nat → Nat}

/-- A renamed label has the same indices. -/
theorem indicesWith_map (hf : Set.InjOn f { label | label ∈ labels }) {label : Nat}
    (hlabel : label ∈ labels) :
    indicesWith (labels.map f) (f label) = indicesWith labels label := by
  rw [indicesWith, List.zipIdx_map, List.filter_map, List.map_map, indicesWith]
  refine congrArg₂ List.map rfl (List.filter_congr fun entry hentry => ?_)
  have hmem : entry.1 ∈ labels := List.mem_of_getElem? (List.mem_zipIdx_iff_getElem?.mp hentry)
  rw [Bool.eq_iff_iff, beq_iff_eq, Function.comp_apply, beq_iff_eq]
  exact ⟨fun h => hf hmem hlabel h, congrArg f⟩

theorem card_toFinset_map (hf : Set.InjOn f { label | label ∈ labels }) :
    (labels.map f).toFinset.card = labels.toFinset.card := by
  have himage : (labels.map f).toFinset = labels.toFinset.image f := by
    ext label
    simp
  rw [himage, Finset.card_image_of_injOn]
  simpa using hf

end labels

namespace Silhouette

variable {α : Type} [Scalar α]

/-! ### Coefficients -/

/-- Distances that tie give the same coefficient. -/
theorem ofDistances_congr [SignedZeros α] {b c : α} (h : Tied b c) (a : α) :
    ofDistances a b = ofDistances a c := by
  rcases SignedZeros.eq_of_tied h with rfl | ⟨hb, hc⟩
  · rfl
  · unfold ofDistances
    rw [SignedZeros.maximum_eq, SignedZeros.maximum_eq, ← h.lt_eq]
    -- where a zero is the greater one the coefficient is zero, whatever its sign
    split
    · dsimp only
      rw [hb, hc, if_pos rfl, if_pos rfl]
    · split
      · dsimp only
        rw [hb, hc, if_pos rfl, if_pos rfl]
      · dsimp only
        cases ha : eq a zero with
        | true => rfl
        | false => rw [SignedZeros.sub_of_zeros hb hc ha]

/-- **A coefficient depends on the members of its cluster and on the set of the other means.** -/
theorem coefficient_congr [SignedZeros α] {row : Nat → α} {index own own' : Nat}
    {clusters clusters' : List (Nat × List Nat)} (hown : clusters'.lookup own' = clusters.lookup own)
    (hmeans : ∀ x, x ∈ otherMeans row own' clusters' ↔ x ∈ otherMeans row own clusters) :
    coefficient row index own' clusters' = coefficient row index own clusters := by
  have hnil : otherMeans row own' clusters' = [] ↔ otherMeans row own clusters = [] := by
    rw [List.eq_nil_iff_forall_not_mem, List.eq_nil_iff_forall_not_mem]
    exact forall_congr' fun x => not_congr (hmeans x)
  rw [coefficient, coefficient, nearestOther?_eq_leastOf, nearestOther?_eq_leastOf, hown]
  cases hb : leastOf (otherMeans row own clusters) with
  | none => rw [leastOf_eq_none_iff.mpr (hnil.mpr (leastOf_eq_none_iff.mp hb))]
  | some b =>
      cases hc : leastOf (otherMeans row own' clusters') with
      | none =>
          rw [leastOf_eq_none_iff.mpr (hnil.mp (leastOf_eq_none_iff.mp hc))] at hb
          cases hb
      | some c =>
          have htied : Tied c b := (isMinimum_of_leastOf hc).tied (isMinimum_of_leastOf hb) hmeans
          exact ofDistances_congr htied _

/-! ### Silhouettes -/

section renamed

variable {m : ScoreMatrix α} {assignment : Assignment} {labels : List Nat} {f : Nat → Nat}

theorem coefficient_map [SignedZeros α] (hf : Set.InjOn f { label | label ∈ labels }) {own : Nat}
    (hown : own ∈ labels) (row : Nat → α) (index : Nat) :
    coefficient row index (f own) (groupByLabel (labels.map f).zipIdx) =
      coefficient row index own (groupByLabel labels.zipIdx) := by
  refine coefficient_congr ?_ fun x => ?_
  · rw [lookup_groupByLabel_zipIdx (List.mem_map_of_mem hown), lookup_groupByLabel_zipIdx hown,
      indicesWith_map hf hown]
  · rw [mem_otherMeans, mem_otherMeans]
    constructor
    · rintro ⟨renamed, hrenamed, hother, rfl⟩
      obtain ⟨label, hlabel, rfl⟩ := List.mem_map.mp hrenamed
      exact ⟨label, hlabel, fun heq => hother (congrArg f heq), by rw [indicesWith_map hf hlabel]⟩
    · rintro ⟨label, hlabel, hother, rfl⟩
      exact ⟨f label, List.mem_map_of_mem hlabel, fun heq => hother (hf hlabel hown heq),
        by rw [indicesWith_map hf hlabel]⟩

theorem ofLabels_eq (m : ScoreMatrix α) (labels : List Nat) :
    ofLabels m labels =
      let scores := labels.zipIdx.map fun entry =>
        coefficient (m.cell entry.2) entry.2 entry.1 (groupByLabel labels.zipIdx)
      if labels.toFinset.card < 2 then
        .error (.undefinedSilhouette (.tooFewClusters labels.toFinset.card m.size))
      else .ok ⟨.ofList (m.ids.zip scores), sum scores / ofNat scores.length⟩ := by
  rw [ofLabels, length_groupByLabel_zipIdx]

theorem ofLabels_map [SignedZeros α] (hf : Set.InjOn f { label | label ∈ labels }) :
    ofLabels m (labels.map f) = ofLabels m labels := by
  have hscores : ((labels.map f).zipIdx.map fun entry =>
      coefficient (m.cell entry.2) entry.2 entry.1 (groupByLabel (labels.map f).zipIdx)) =
        labels.zipIdx.map fun entry =>
          coefficient (m.cell entry.2) entry.2 entry.1 (groupByLabel labels.zipIdx) := by
    rw [List.zipIdx_map (f := f), List.map_map]
    refine List.map_congr_left fun entry hentry => ?_
    rw [← List.zipIdx_map]
    exact coefficient_map hf
      (List.mem_of_getElem? (List.mem_zipIdx_iff_getElem?.mp hentry)) _ _
  rw [ofLabels_eq, ofLabels_eq, hscores, card_toFinset_map hf]

omit [Scalar α] in
theorem labelsOf?_map (assignment : Assignment) (f : Nat → Nat) (ids : List BlockId) :
    labelsOf? (α := α) (assignment.map f) ids = (labelsOf? assignment ids).map (List.map f) := by
  cases h : labelsOf? (α := α) assignment ids with
  | ok labels =>
      have hrenamed : ids.map (assignment.map f).get? = (ids.map assignment.get?).map (Option.map f) := by
        rw [List.map_map]
        exact List.map_congr_left fun id _ => Roster.get?_map f assignment id
      refine labelsOf?_eq_ok_iff.mpr ?_
      rw [hrenamed, labelsOf?_eq_ok_iff.mp h, List.map_map, List.map_map]
      rfl
  | error fault =>
      obtain ⟨before, id, after, hids, hbefore, hid, rfl⟩ := labelsOf?_eq_error_iff.mp h
      refine labelsOf?_eq_error_iff.mpr ⟨before, id, after, hids, fun u hu => ?_, ?_, rfl⟩
      · rw [Roster.get?_map, Ne, Option.map_eq_none_iff]
        exact hbefore u hu
      · rw [Roster.get?_map, hid, Option.map_none]

/-- **Renaming the labels** keeps the silhouette, or the fault. -/
theorem ofAssignment_map [SignedZeros α]
    (hf : Set.InjOn f { label | label ∈ assignment.values }) :
    ofAssignment m (assignment.map f) = ofAssignment m assignment := by
  rw [ofAssignment, ofAssignment, labelsOf?_map]
  refine congrArg (m.validate >>= ·) (funext fun _ => ?_)
  split
  · rfl
  · cases h : labelsOf? (α := α) assignment m.ids with
    | error fault => rfl
    | ok labels =>
        refine ofLabels_map (hf.mono fun label hlabel => ?_)
        have hsome : some label ∈ m.ids.map assignment.get? := by
          rw [labelsOf?_eq_ok_iff.mp h]
          exact List.mem_map_of_mem hlabel
        obtain ⟨id, -, hid⟩ := List.mem_map.mp hsome
        exact Roster.mem_values_iff.mpr ⟨id, hid⟩

end renamed

end Silhouette

end BlockAffinity
