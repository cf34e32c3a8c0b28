import Mathlib
import BlockAffinity.Proofs.Distribution.Normal
import BlockAffinity.Proofs.Lists
import BlockAffinity.Proofs.Number.Ties
import BlockAffinity.Proofs.ScoreMatrix.Validity
import BlockAffinity.Proofs.Silhouette.Failures

/-!
# BlockAffinity.Proofs.Silhouette.Scores

**What a silhouette is**, in exact arithmetic (`Silhouette.Describes`). The score of a block compares
two mean distances: the one to the other blocks of its cluster (`withinDistance`) and the least one to
another cluster, which exists because there are two clusters (`nearestOther?_isLeast`). Both are not
negative, so their ratio is between -1 and 1 (`ratio_mem_Icc`), and so is the mean of the scores.

The same computation with its guards is `checkedOfAssignment`. It gives nothing as soon as a divisor is
zero, a score has to be clamped, or a block finds no other cluster; none of this ever happens
(`checkedOfAssignment_eq`).
-/

namespace BlockAffinity.Silhouette

open Scalar ExactField

variable {K : Type} [ExactField K]

/-! ### Mean distances -/

/-- The blocks with a label. -/
def blocksWith (labels : List Nat) (label : Nat) : Finset Nat :=
  (Finset.range labels.length).filter fun i => labels[i]? = some label

/-- The mean distance from a block to some blocks. -/
def meanDistance (m : ScoreMatrix K) (i : Nat) (A : Finset Nat) : K :=
  (∑ j ∈ A, m.cell i j) / A.card

/-- The mean distance from a block to the other blocks of its cluster, zero if there are none. -/
def withinDistance (m : ScoreMatrix K) (labels : List Nat) (i own : Nat) : K :=
  if (blocksWith labels own).erase i = ∅ then 0
  else meanDistance m i ((blocksWith labels own).erase i)

/-- The mean distances from a block to the other clusters. -/
def otherDistances (m : ScoreMatrix K) (labels : List Nat) (i own : Nat) : Set K :=
  { x | ∃ label ∈ labels, label ≠ own ∧ x = meanDistance m i (blocksWith labels label) }

section means

variable {m : ScoreMatrix K} {labels members : List Nat} {label i own : Nat}

theorem mem_blocksWith : i ∈ blocksWith labels label ↔ labels[i]? = some label := by
  rw [blocksWith, Finset.mem_filter, Finset.mem_range, and_iff_right_iff_imp]
  exact fun h => (List.getElem?_eq_some_iff.mp h).1

theorem toFinset_indicesWith (labels : List Nat) (label : Nat) :
    (indicesWith labels label).toFinset = blocksWith labels label := by
  ext i
  rw [List.mem_toFinset, mem_indicesWith, mem_blocksWith]

omit [ExactField K] in
theorem blocksWith_subset (hlength : labels.length = m.size) :
    blocksWith labels label ⊆ Finset.range m.size := hlength ▸ Finset.filter_subset _ _

theorem meanOver_eq (h : members.Nodup) :
    meanOver (m.cell i) members members.length = meanDistance m i members.toFinset := by
  rw [meanOver, ExactField.sum_eq, meanDistance, List.sum_toFinset _ h, List.toFinset_card_of_nodup h]
  rfl

theorem within_eq (hi : labels[i]? = some own) :
    within (m.cell i) i (indicesWith labels own) = withinDistance m labels i own := by
  have hmem : i ∈ blocksWith labels own := mem_blocksWith.mpr hi
  have hnodup : (indicesWith labels own).Nodup := nodup_indicesWith
  have hothers : ((indicesWith labels own).filter (· != i)).toFinset =
      (blocksWith labels own).erase i := by
    ext j
    simp [mem_indicesWith, mem_blocksWith, and_comm]
  have hcount : (indicesWith labels own).length - 1 =
      ((indicesWith labels own).filter (· != i)).length := by
    rw [← List.toFinset_card_of_nodup hnodup, ← List.toFinset_card_of_nodup (hnodup.filter _), hothers,
      toFinset_indicesWith, Finset.card_erase_of_mem hmem]
  have hmean : meanOver (m.cell i) ((indicesWith labels own).filter (· != i))
      ((indicesWith labels own).length - 1) = meanDistance m i ((blocksWith labels own).erase i) := by
    rw [hcount, meanOver_eq (hnodup.filter _), hothers]
  have hnone : (indicesWith labels own).length - 1 = 0 ↔ (blocksWith labels own).erase i = ∅ := by
    rw [← hothers, hcount, List.toFinset_eq_empty_iff, List.length_eq_zero_iff]
  rw [within, withinDistance, hmean]
  exact if_congr hnone rfl rfl

variable (hvalid : m.validate = .ok ()) (hlength : labels.length = m.size)
include hvalid

theorem meanDistance_nonneg {A : Finset Nat} (hi : i < m.size) (hA : A ⊆ Finset.range m.size) :
    0 ≤ meanDistance m i A := by
  refine div_nonneg (Finset.sum_nonneg fun j hj => ?_) (Nat.cast_nonneg _)
  exact ScoreMatrix.cell_nonneg_of_valid hvalid hi (Finset.mem_range.mp (hA hj))

include hlength

theorem withinDistance_nonneg (hi : i < m.size) : 0 ≤ withinDistance m labels i own := by
  rw [withinDistance]
  split
  · exact le_rfl
  · exact meanDistance_nonneg hvalid hi
      ((Finset.erase_subset _ _).trans (blocksWith_subset hlength))

theorem otherDistances_nonneg (hi : i < m.size) {b : K} (hb : b ∈ otherDistances m labels i own) :
    0 ≤ b := by
  obtain ⟨label, -, -, rfl⟩ := hb
  exact meanDistance_nonneg hvalid hi (blocksWith_subset hlength)

end means

/-! ### The nearest other cluster -/

section others

variable {α : Type} [Scalar α]

/-- The mean distances to the other clusters. -/
def otherMeans (row : Nat → α) (own : Nat) (clusters : List (Nat × List Nat)) : List α :=
  (clusters.filter fun cluster => cluster.1 != own).map
    fun cluster => meanOver row cluster.2 cluster.2.length

theorem mem_otherMeans {row : Nat → α} {own : Nat} {labels : List Nat} {x : α} :
    x ∈ otherMeans row own (groupByLabel labels.zipIdx) ↔ ∃ label ∈ labels, label ≠ own ∧
      x = meanOver row (indicesWith labels label) (indicesWith labels label).length := by
  simp only [otherMeans, List.mem_map, List.mem_filter, mem_groupByLabel_zipIdx, bne_iff_ne]
  constructor
  · rintro ⟨cluster, ⟨⟨hlabel, hmembers⟩, hother⟩, rfl⟩
    exact ⟨cluster.1, hlabel, hother, by rw [hmembers]⟩
  · rintro ⟨label, hlabel, hother, rfl⟩
    exact ⟨(label, indicesWith labels label), ⟨⟨hlabel, rfl⟩, hother⟩, rfl⟩

theorem nearestOther?_eq_leastOf (row : Nat → α) (own : Nat) (clusters : List (Nat × List Nat)) :
    nearestOther? row own clusters = leastOf (otherMeans row own clusters) := by
  rw [leastOf, otherMeans, List.foldl_map]
  rfl

end others

/-- **The nearest other cluster** is found if there is another cluster at all. -/
theorem nearestOther?_isLeast (m : ScoreMatrix K) {labels : List Nat}
    (hmany : 2 ≤ labels.toFinset.card) (i own : Nat) :
    ∃ b, nearestOther? (m.cell i) own (groupByLabel labels.zipIdx) = some b ∧
      IsLeast (otherDistances m labels i own) b := by
  have hmem (x : K) : x ∈ otherMeans (m.cell i) own (groupByLabel labels.zipIdx) ↔
      x ∈ otherDistances m labels i own := by
    have hmean (label : Nat) : meanOver (m.cell i) (indicesWith labels label)
        (indicesWith labels label).length = meanDistance m i (blocksWith labels label) := by
      rw [meanOver_eq nodup_indicesWith, toFinset_indicesWith]
    simp only [mem_otherMeans, hmean, otherDistances, Set.mem_ofPred_eq]
  rw [nearestOther?_eq_leastOf]
  cases hb : leastOf (otherMeans (m.cell i) own (groupByLabel labels.zipIdx)) with
  | none =>
      obtain ⟨label, hlabel, hother⟩ := Finset.exists_mem_ne (Nat.lt_of_succ_le hmany) own
      have hexists := (hmem _).mpr ⟨label, List.mem_toFinset.mp hlabel, hother, rfl⟩
      rw [leastOf_eq_none_iff.mp hb] at hexists
      cases hexists
  | some b =>
      obtain ⟨hleast, hle⟩ := isMinimum_of_leastOf hb
      exact ⟨b, rfl, (hmem b).mp hleast,
        fun x hx => not_lt.mp (of_decide_eq_false (hle x ((hmem x).mpr hx)).1)⟩

/-! ### Ratios -/

/-- How much nearer the own cluster is. -/
def ratio (a b : K) : K := if max a b = 0 then 0 else (b - a) / max a b

section ratio

variable {a b : K} (ha : 0 ≤ a) (hb : 0 ≤ b)

include ha hb

/-- **Ratios are between -1 and 1.** -/
theorem ratio_mem_Icc : ratio a b ∈ Set.Icc (-1) 1 := by
  rw [ratio]
  split
  · exact ⟨neg_one_lt_zero.le, zero_le_one⟩
  · rename_i hne
    have hpos : 0 < max a b := (le_max_of_le_left ha).lt_of_ne' hne
    constructor
    · rw [le_div_iff₀ hpos, neg_one_mul, neg_le_sub_iff_le_add]
      exact (le_max_left a b).trans (le_add_of_nonneg_left hb)
    · rw [div_le_one hpos]
      exact (sub_le_self b ha).trans (le_max_right a b)

/-- The ratio needs no clamping. -/
theorem clamp_quotient (h : max a b ≠ 0) :
    clamp (-one) one ((b - a) / max a b) = (b - a) / max a b := by
  have hrange := ratio_mem_Icc ha hb
  rw [ratio, if_neg h] at hrange
  have hlow : lt ((b - a) / max a b) (-one) = false := decide_eq_false (not_lt.mpr hrange.1)
  have hhigh : lt one ((b - a) / max a b) = false := decide_eq_false (not_lt.mpr hrange.2)
  simp only [clamp, hlow, hhigh, Bool.false_eq_true, if_false]

theorem ofDistances_eq : ofDistances a b = ratio a b := by
  have hscale : eq (max a b) zero = decide (max a b = 0) := rfl
  change (if eq (max a b) zero then zero else clamp (-one) one ((b - a) / max a b)) = ratio a b
  rw [hscale, ratio]
  by_cases hzero : max a b = 0
  · rw [decide_eq_true hzero, if_pos rfl, if_pos hzero]
    rfl
  · rw [decide_eq_false hzero, if_neg Bool.false_ne_true, if_neg hzero, clamp_quotient ha hb hzero]

end ratio

/-- **A mean of values between -1 and 1** is between -1 and 1. -/
theorem mean_mem_Icc {xs : List K} (hpos : 0 < xs.length) (h : ∀ x ∈ xs, x ∈ Set.Icc (-1) 1) :
    xs.sum / (xs.length : K) ∈ Set.Icc (-1) 1 := by
  have hlength : (0 : K) < xs.length := Nat.cast_pos.mpr hpos
  have hlow := List.card_nsmul_le_sum xs (-1) fun x hx => (h x hx).1
  have hhigh := List.sum_le_card_nsmul xs 1 fun x hx => (h x hx).2
  rw [nsmul_eq_mul] at hlow hhigh
  constructor
  · rwa [le_div_iff₀ hlength, mul_comm]
  · rw [div_le_one hlength]
    rwa [mul_one] at hhigh

/-! ### Scores of blocks -/

/-- The scores of labelled blocks in matrix order. -/
def scoreList (m : ScoreMatrix K) (labels : List Nat) : List K :=
  labels.zipIdx.map fun (label, index) =>
    coefficient (m.cell index) index label (groupByLabel labels.zipIdx)

section scores

variable {m : ScoreMatrix K} {labels : List Nat} {i own : Nat}

theorem lookup_groupByLabel_zipIdx (h : own ∈ labels) :
    (groupByLabel labels.zipIdx).lookup own = some (indicesWith labels own) := by
  rw [groupByLabel_zipIdx]
  exact List.lookup_graph _ (mem_labelSet.mpr h)

theorem length_scoreList (m : ScoreMatrix K) (labels : List Nat) :
    (scoreList m labels).length = labels.length := by
  rw [scoreList, List.length_map, List.length_zipIdx]

theorem getElem?_scoreList_eq_map (m : ScoreMatrix K) (labels : List Nat) (i : Nat) :
    (scoreList m labels)[i]? =
      labels[i]?.map fun own => coefficient (m.cell i) i own (groupByLabel labels.zipIdx) := by
  rw [scoreList, List.getElem?_map, List.getElem?_zipIdx]
  cases labels[i]? with
  | none => rfl
  | some own => simp

/-- The mean distances that a score compares, as they are computed. -/
theorem coefficient_eq_ofDistances {b : K} (hi : labels[i]? = some own)
    (hb : nearestOther? (m.cell i) own (groupByLabel labels.zipIdx) = some b) :
    coefficient (m.cell i) i own (groupByLabel labels.zipIdx) =
      ofDistances (withinDistance m labels i own) b := by
  rw [coefficient, lookup_groupByLabel_zipIdx (List.mem_of_getElem? hi), hb, Option.getD_some,
    within_eq hi]

variable (hvalid : m.validate = .ok ()) (hlength : labels.length = m.size)
  (hmany : 2 ≤ labels.toFinset.card)
include hvalid hlength hmany

/-- **The score of a block** is the ratio of its two mean distances. -/
theorem coefficient_eq_ratio (hi : labels[i]? = some own) :
    ∃ b, IsLeast (otherDistances m labels i own) b ∧
      nearestOther? (m.cell i) own (groupByLabel labels.zipIdx) = some b ∧
      0 ≤ withinDistance m labels i own ∧ 0 ≤ b ∧
      coefficient (m.cell i) i own (groupByLabel labels.zipIdx) =
        ratio (withinDistance m labels i own) b := by
  have hlt : i < m.size := hlength ▸ (List.getElem?_eq_some_iff.mp hi).1
  obtain ⟨b, hb, hleast⟩ := nearestOther?_isLeast m hmany i own
  have ha : 0 ≤ withinDistance m labels i own := withinDistance_nonneg hvalid hlength hlt
  have hnonneg := otherDistances_nonneg hvalid hlength hlt hleast.1
  refine ⟨b, hleast, hb, ha, hnonneg, ?_⟩
  rw [coefficient_eq_ofDistances hi hb, ofDistances_eq ha hnonneg]

theorem getElem?_scoreList (hi : labels[i]? = some own) :
    ∃ b, IsLeast (otherDistances m labels i own) b ∧
      (scoreList m labels)[i]? = some (ratio (withinDistance m labels i own) b) := by
  obtain ⟨b, hleast, -, -, -, heq⟩ := coefficient_eq_ratio hvalid hlength hmany hi
  refine ⟨b, hleast, ?_⟩
  rw [← heq, getElem?_scoreList_eq_map, hi, Option.map_some]

theorem scoreList_mem_Icc {score : K} (h : score ∈ scoreList m labels) :
    score ∈ Set.Icc (-1) 1 := by
  obtain ⟨⟨own, i⟩, hentry, rfl⟩ := List.mem_map.mp h
  obtain ⟨b, -, -, ha, hb, heq⟩ :=
    coefficient_eq_ratio hvalid hlength hmany (List.mem_zipIdx_iff_getElem?.mp hentry)
  dsimp only
  rw [heq]
  exact ratio_mem_Icc ha hb

end scores

/-! ### The computation with its guards -/

/-- A quotient, if there is something to divide by. -/
def quotient? (x y : K) : Option K := if y = 0 then none else some (x / y)

/-- The mean of the given cells of a row. -/
def checkedMean (row : Nat → K) (members : List Nat) (count : Nat) : Option K :=
  quotient? (sum (members.map row)) (ofNat count)

/-- The mean distance to the other members of a block's cluster. -/
def checkedWithin (row : Nat → K) (index : Nat) (cluster : List Nat) : Option K :=
  if cluster.length - 1 = 0 then some zero
  else checkedMean row (cluster.filter (· != index)) (cluster.length - 1)

/-- The least mean distance to the members of another cluster. -/
def checkedNearest (row : Nat → K) (own : Nat) (clusters : List (Nat × List Nat)) : Option K := do
  let least ← (clusters.filter fun cluster => cluster.1 != own).foldlM
    (fun least cluster => do
      let mean ← checkedMean row cluster.2 cluster.2.length
      return some (match least with
        | none => mean
        | some value => minimum value mean))
    none
  least

/-- The coefficient that belongs to the two mean distances. -/
def checkedRatio (a b : K) : Option K :=
  let scale := maximum a b
  if eq scale zero then some zero
  else do
    let score ← quotient? (b - a) scale
    if clamp (-one) one score = score then some score else none

/-- The coefficient of the block with this row, index and label. -/
def checkedCoefficient (row : Nat → K) (index own : Nat) (clusters : List (Nat × List Nat)) :
    Option K := do
  let cluster ← clusters.lookup own
  let a ← checkedWithin row index cluster
  let b ← checkedNearest row own clusters
  checkedRatio a b

/-- The silhouette of labelled blocks. -/
def checkedOfLabels (m : ScoreMatrix K) (labels : List Nat) :
    Option (Except (Fault K) (Silhouette K)) :=
  let clusters := groupByLabel labels.zipIdx
  if clusters.length < 2 then
    some (.error (.undefinedSilhouette (.tooFewClusters clusters.length m.size)))
  else do
    let scores ← labels.zipIdx.mapM fun (label, index) =>
      checkedCoefficient (m.cell index) index label clusters
    let mean ← quotient? (sum scores) (ofNat scores.length)
    return .ok ⟨.ofList (m.ids.zip scores), mean⟩

/-- The silhouette of an assignment on a distance matrix. -/
def checkedOfAssignment (m : ScoreMatrix K) (assignment : Assignment) :
    Option (Except (Fault K) (Silhouette K)) :=
  match m.validate with
  | .error fault => some (.error fault)
  | .ok () =>
      if m.isEmpty then some (.error (.undefinedSilhouette .noBlocks))
      else
        match labelsOf? assignment m.ids with
        | .error fault => some (.error fault)
        | .ok labels => checkedOfLabels m labels

section checked

variable {m : ScoreMatrix K} {labels : List Nat} {i own : Nat}

theorem checkedMean_eq (row : Nat → K) (members : List Nat) {count : Nat} (h : count ≠ 0) :
    checkedMean row members count = some (meanOver row members count) :=
  if_neg (Nat.cast_ne_zero.mpr h)

theorem checkedWithin_eq (row : Nat → K) (i : Nat) (cluster : List Nat) :
    checkedWithin row i cluster = some (within row i cluster) := by
  rw [checkedWithin, within]
  split
  · rfl
  · rename_i hcount
    exact checkedMean_eq row _ hcount

/-- Every cluster with members has a mean. -/
theorem checkedNearest_eq (row : Nat → K) (own : Nat) {clusters : List (Nat × List Nat)}
    (h : ∀ cluster ∈ clusters, cluster.2 ≠ []) :
    checkedNearest row own clusters = nearestOther? row own clusters := by
  have hmean : ∀ cluster ∈ clusters.filter fun cluster => cluster.1 != own,
      checkedMean row cluster.2 cluster.2.length = some (meanOver row cluster.2 cluster.2.length) :=
    fun cluster hcluster => checkedMean_eq row _
      (mt List.length_eq_zero_iff.mp (h cluster (List.mem_of_mem_filter hcluster)))
  rw [checkedNearest, nearestOther?]
  refine (congrArg (fun found : Option (Option K) => found >>= fun least => least)
    (foldlM_eq_some_foldl (fun cluster hcluster least => ?_) none)).trans rfl
  rw [hmean cluster hcluster]
  rfl

theorem checkedRatio_eq {a b : K} (ha : 0 ≤ a) (hb : 0 ≤ b) :
    checkedRatio a b = some (ratio a b) := by
  have hscale : eq (max a b) zero = decide (max a b = 0) := rfl
  change (if eq (max a b) zero then some zero else _) = some (ratio a b)
  rw [hscale, ratio]
  by_cases hzero : max a b = 0
  · rw [decide_eq_true hzero, if_pos rfl, if_pos hzero]
    rfl
  · have hquotient : quotient? (b - a) (max a b) = some ((b - a) / max a b) := if_neg hzero
    rw [decide_eq_false hzero, if_neg Bool.false_ne_true, if_neg hzero]
    refine (congrArg (· >>= _) hquotient).trans ?_
    exact if_pos (clamp_quotient ha hb hzero)

/-- No guard stops the computation of a score. -/
theorem checkedCoefficient_eq (hvalid : m.validate = .ok ()) (hlength : labels.length = m.size)
    (hmany : 2 ≤ labels.toFinset.card) (hi : labels[i]? = some own) :
    checkedCoefficient (m.cell i) i own (groupByLabel labels.zipIdx) =
      some (coefficient (m.cell i) i own (groupByLabel labels.zipIdx)) := by
  have hclusters : ∀ cluster ∈ groupByLabel labels.zipIdx, cluster.2 ≠ [] := by
    intro cluster hcluster hempty
    obtain ⟨hlabel, hindices⟩ := mem_groupByLabel_zipIdx.mp hcluster
    obtain ⟨j, hj⟩ := List.mem_iff_getElem?.mp hlabel
    have hmem := mem_indicesWith.mpr hj
    rw [← hindices, hempty] at hmem
    cases hmem
  obtain ⟨b, -, hb, ha, hnonneg, heq⟩ := coefficient_eq_ratio hvalid hlength hmany hi
  rw [heq, ← checkedRatio_eq ha hnonneg, checkedCoefficient,
    lookup_groupByLabel_zipIdx (List.mem_of_getElem? hi), checkedNearest_eq _ _ hclusters, hb,
    ← within_eq hi]
  exact congrArg (· >>= _) (checkedWithin_eq _ _ _)

theorem checkedOfLabels_eq (hvalid : m.validate = .ok ()) (hlength : labels.length = m.size) :
    checkedOfLabels m labels = some (ofLabels m labels) := by
  rw [checkedOfLabels, ofLabels]
  dsimp only
  split
  · rfl
  · rename_i hmany
    rw [length_groupByLabel_zipIdx, Nat.not_lt] at hmany
    have hscores : labels.zipIdx.mapM (fun (label, index) =>
        checkedCoefficient (m.cell index) index label (groupByLabel labels.zipIdx)) =
          some (scoreList m labels) :=
      mapM_eq_some_map fun entry hentry => checkedCoefficient_eq hvalid hlength hmany
        (List.mem_zipIdx_iff_getElem?.mp hentry)
    have hcount : (scoreList m labels).length ≠ 0 := by
      rw [length_scoreList]
      have := hmany.trans (List.toFinset_card_le labels)
      omega
    have hmean : quotient? (sum (scoreList m labels)) (ofNat (scoreList m labels).length) =
        some (sum (scoreList m labels) / ofNat (scoreList m labels).length) :=
      if_neg (Nat.cast_ne_zero.mpr hcount)
    rw [hscores, Option.bind_eq_bind, Option.bind_some, hmean]
    rfl

/-- **No guard ever stops the computation**: divisors are not zero, no score is clamped, and every
block finds another cluster. -/
theorem checkedOfAssignment_eq (m : ScoreMatrix K) (assignment : Assignment) :
    checkedOfAssignment m assignment = some (ofAssignment m assignment) := by
  rw [checkedOfAssignment, ofAssignment]
  cases hvalid : m.validate with
  | error fault => rfl
  | ok _ =>
      cases m.isEmpty with
      | true => rfl
      | false =>
          cases hlabels : labelsOf? (α := K) assignment m.ids with
          | error fault => rfl
          | ok labels =>
              exact checkedOfLabels_eq hvalid (length_eq_of_labels (labelsOf?_eq_ok_iff.mp hlabels))

end checked

/-! ### Silhouettes -/

/-- What a silhouette says of labelled blocks. -/
structure Describes (silhouette : Silhouette K) (m : ScoreMatrix K) (labels : List Nat) : Prop where
  /-- The scores are in matrix order. -/
  ids : silhouette.scores.ids = m.ids
  /-- They compare the mean distance to the own cluster with the least one to another cluster. -/
  score : ∀ (i own : Nat), labels[i]? = some own → ∃ b, IsLeast (otherDistances m labels i own) b ∧
    silhouette.scores.values[i]? = some (ratio (withinDistance m labels i own) b)
  score_mem : ∀ score ∈ silhouette.scores.values, score ∈ Set.Icc (-1 : K) 1
  mean : silhouette.mean = silhouette.scores.values.sum / m.size
  mean_mem : silhouette.mean ∈ Set.Icc (-1 : K) 1

theorem ofLabels_eq_ok {m : ScoreMatrix K} {labels : List Nat} (hmany : 2 ≤ labels.toFinset.card) :
    ofLabels m labels = .ok ⟨.ofList (m.ids.zip (scoreList m labels)),
      sum (scoreList m labels) / ofNat (scoreList m labels).length⟩ := by
  rw [ofLabels, length_groupByLabel_zipIdx]
  exact if_neg (Nat.not_lt.mpr hmany)

/-- **Blocks with two labels have a silhouette.** -/
theorem exists_ofLabels_eq_ok {m : ScoreMatrix K} {labels : List Nat} (hvalid : m.validate = .ok ())
    (hids : m.ids.Nodup) (hlength : labels.length = m.size) (hmany : 2 ≤ labels.toFinset.card) :
    ∃ silhouette, ofLabels m labels = .ok silhouette ∧ silhouette.Describes m labels := by
  have hcount : (scoreList m labels).length = m.size := (length_scoreList m labels).trans hlength
  have hentries : (Roster.ofList (m.ids.zip (scoreList m labels))).entries =
      m.ids.zip (scoreList m labels) := by
    refine Roster.entries_ofList ?_
    rwa [List.map_fst_zip hcount.ge]
  have hvalues : (Roster.ofList (m.ids.zip (scoreList m labels))).values = scoreList m labels := by
    rw [Roster.values, hentries, List.map_snd_zip hcount.le]
  have hmean : sum (scoreList m labels) / ofNat (scoreList m labels).length =
      (scoreList m labels).sum / (m.size : K) := by
    rw [ExactField.sum_eq, hcount]
    rfl
  have hpos : 0 < (scoreList m labels).length := by
    have := hmany.trans (List.toFinset_card_le labels)
    omega
  have hmem : ∀ score ∈ scoreList m labels, score ∈ Set.Icc (-1 : K) 1 :=
    fun score => scoreList_mem_Icc hvalid hlength hmany
  refine ⟨_, ofLabels_eq_ok hmany, ?_, ?_, ?_, hmean.trans ?_, ?_⟩
  · rw [Roster.ids, hentries, List.map_fst_zip hcount.ge]
  · rw [hvalues]
    exact fun i own hi => getElem?_scoreList hvalid hlength hmany hi
  · rwa [hvalues]
  · rw [hvalues]
  · rw [hmean, ← hcount]
    exact mean_mem_Icc hpos hmem

/-- **Silhouettes.** With any scalars, an assignment has no silhouette in the listed cases only, and
the fault is that of the first check that fails. In all other cases, with different blocks and exact
arithmetic, the scores are in matrix order and compare the two mean distances of each block, the
result is their mean, all are between -1 and 1, and no guard is needed to compute them. -/
theorem ofAssignment_eq_error_or_describes :
    (∀ (α : Type) [Scalar α] (m : ScoreMatrix α) (assignment : Assignment) (fault : Fault α),
      ofAssignment m assignment = .error fault ↔ Fails m assignment fault) ∧
    ∀ (K : Type) [ExactField K] (m : ScoreMatrix K) (assignment : Assignment), m.ids.Nodup →
      (∀ fault, ¬ Fails m assignment fault) →
      ∃ labels silhouette, m.ids.map assignment.get? = labels.map some ∧
        ofAssignment m assignment = .ok silhouette ∧ silhouette.Describes m labels ∧
        checkedOfAssignment m assignment = some (.ok silhouette) := by
  refine ⟨fun α _ m assignment fault => ofAssignment_eq_error_iff, ?_⟩
  intro K _ m assignment hids hnone
  obtain ⟨hvalid, labels, hlabels, hmany, hof⟩ := exists_labels_of_not_fails hnone
  have hlength := congrArg List.length hlabels
  rw [List.length_map, List.length_map] at hlength
  obtain ⟨silhouette, hok, hdescribes⟩ := exists_ofLabels_eq_ok hvalid hids hlength.symm hmany
  refine ⟨labels, silhouette, hlabels, hof.trans hok, hdescribes, ?_⟩
  rw [checkedOfAssignment_eq, hof, hok]

/-- Three blocks; the first two are near each other. -/
def twoAndOne : ScoreMatrix ℚ where
  ids := [⟨"a"⟩, ⟨"b"⟩, ⟨"c"⟩]
  values := #[0, 1, 4, 1, 0, 3, 4, 3, 0]

/-- The last block is alone in its cluster, then without a label. -/
theorem twoAndOne_describes :
    (∃ silhouette,
      ofAssignment twoAndOne (.ofLabels twoAndOne.ids [1, 1, 2]) = .ok silhouette ∧
        silhouette.Describes twoAndOne [1, 1, 2] ∧
        silhouette.scores.values = [3 / 4, 2 / 3, 1]) ∧
    ofAssignment twoAndOne (.ofLabels [⟨"a"⟩, ⟨"b"⟩] [1, 2]) = .error (.unlabelled ⟨"c"⟩) := by
  have hids : twoAndOne.ids.Nodup := by decide
  have hvalid : twoAndOne.validate = .ok () := by
    refine ScoreMatrix.validate_eq_ok_iff.mpr (Option.isNone_iff_eq_none.mp ?_)
    decide +kernel
  refine ⟨?_, ?_⟩
  · have hnone : ∀ fault,
        ¬ Fails twoAndOne (.ofLabels twoAndOne.ids [1, 1, 2]) fault := by
      intro fault hfails
      have herror := (ofAssignment_eq_error_or_describes.1 ℚ _ _ fault).mpr hfails
      have hok : (ofAssignment twoAndOne (.ofLabels twoAndOne.ids [1, 1, 2])).isOk = true := by
        decide +kernel
      rw [herror] at hok
      cases hok
    obtain ⟨labels, silhouette, hlabels, hof, hdescribes, -⟩ :=
      ofAssignment_eq_error_or_describes.2 ℚ _ _ hids hnone
    have hsome : [1, 1, 2].map some = labels.map some := hlabels
    obtain rfl := List.map_injective_iff.mpr (Option.some_injective Nat) hsome
    refine ⟨silhouette, hof, hdescribes, ?_⟩
    have hvalues : (ofAssignment twoAndOne (.ofLabels twoAndOne.ids [1, 1, 2])).toOption.map
        (fun silhouette => silhouette.scores.values) = some [3 / 4, 2 / 3, 1] := by
      decide +kernel
    rw [hof] at hvalues
    exact Option.some.inj hvalues
  · refine (ofAssignment_eq_error_or_describes.1 ℚ _ _ _).mpr ?_
    have hsplit : twoAndOne.ids = [⟨"a"⟩, ⟨"b"⟩] ++ ⟨"c"⟩ :: [] := rfl
    exact .unlabelled hvalid hsplit (by decide) (by decide)

end BlockAffinity.Silhouette
