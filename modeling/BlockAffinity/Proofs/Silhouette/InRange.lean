import BlockAffinity.Proofs.Number.Magnitude
import BlockAffinity.Proofs.Silhouette.Relabelling

/-!
# BlockAffinity.Proofs.Silhouette.InRange

**Silhouettes over doubles are numbers from -1 to 1** as long as no sum of distances overflows
(`Silhouette.ofAssignment_inRange`). The two mean distances of a block are then finite and not negative,
and their difference is not larger than the greater one, so the quotient is finite and clamping it works;
clamping does not help against a NaN.
-/

namespace BlockAffinity.Silhouette

open Scalar Double

/-! ### Coefficients -/

/-- **The coefficient of two finite distances** is in the range. -/
theorem within_ofDistances {a b : Float} {c : ℚ} (ha : InRange c a) (hb : InRange c b) :
    Within 1 (ofDistances a b) := by
  have hmax : toRat (maximum a b) = max (toRat a) (toRat b) := toRat_maximum ha.finite hb.finite
  have hscale : isFinite (maximum a b) = true := by
    rcases maximum_eq_or a b with heq | heq <;> rw [heq]
    · exact ha.finite
    · exact hb.finite
  simp only [ofDistances]
  split
  · exact (inRange_zero zero_le_one).within
  · rename_i hzero
    have hpos : 0 < toRat (maximum a b) := by
      have hnonneg : 0 ≤ toRat (maximum a b) := hmax ▸ ha.nonneg.trans (le_max_left _ _)
      refine hnonneg.lt_of_ne' fun hnull => hzero ?_
      refine (OrderedScalar.eq_iff (isNaN_of_isFinite hscale) rfl).mpr ⟨?_, ?_⟩
      · exact (lt_eq_false_iff_toRat hscale rfl).mpr hnull.ge
      · exact (lt_eq_false_iff_toRat rfl hscale).mpr hnull.le
    -- the difference is not larger than the scale, which is a double
    have hdifference : Within (toRat (maximum a b)) (b - a) := by
      refine (hb.isRounding_sub ha).within (representable_toRat _) (abs_le.mpr ⟨?_, ?_⟩)
      · linarith [hb.nonneg, hmax ▸ le_max_left (toRat a) (toRat b)]
      · linarith [ha.nonneg, hmax ▸ le_max_right (toRat a) (toRat b)]
    have hquotient : |toRat (b - a) / toRat (maximum a b)| ≤ 1 := by
      rw [abs_div, abs_of_pos hpos]
      exact div_le_one_of_le₀ hdifference.magnitude_le hpos.le
    have hone : (1 : ℚ) ≤ largest := by simpa using two_pow_le_largest (n := 0) (by norm_num)
    exact within_clamp
      (isRounding_div hdifference.finite hscale hpos.ne' (hquotient.trans hone)).finite

section matrix

variable {m : ScoreMatrix Float} {labels : List Nat} {bound : ℚ} {i own : Nat}

/-- The cells of a matrix leave room for the sum of a row. -/
structure RowsFit (m : ScoreMatrix Float) (bound : ℚ) : Prop where
  size_lt : m.size < 2 ^ 30
  cell : ∀ i j, i < m.size → j < m.size → InRange bound (m.cell i j)
  fits : m.size * bound ≤ 2 ^ 1021

/-- A mean distance to some blocks is finite and not negative. -/
theorem inRange_meanOver (h : RowsFit m bound) (hi : i < m.size) {members : List Nat} {count : Nat}
    (hmembers : ∀ j ∈ members, j < m.size) (hlength : members.length ≤ m.size) (hpos : 0 < count)
    (hcount : count ≤ m.size) : InRange (2 ^ 1022) (meanOver (m.cell i) members count) := by
  have hsize := h.size_lt
  have hbound : 0 ≤ bound := (h.cell i i hi hi).bound_nonneg
  refine InRange.div_ofNat (inRange_sum_of_le (n := m.size) ?_ hsize h.fits hbound ?_) hpos
    (by omega)
  · rwa [List.length_map]
  · intro y hy
    obtain ⟨j, hj, rfl⟩ := List.mem_map.mp hy
    exact h.cell i j hi (hmembers j hj)

theorem length_indicesWith_le (labels : List Nat) (label : Nat) :
    (indicesWith labels label).length ≤ labels.length := by
  rw [indicesWith, List.length_map]
  exact (List.length_filter_le _ _).trans_eq (List.length_zipIdx)

theorem lt_size_of_mem_indicesWith (hlength : labels.length = m.size) {label j : Nat}
    (hj : j ∈ indicesWith labels label) : j < m.size :=
  hlength ▸ (List.getElem?_eq_some_iff.mp (mem_indicesWith.mp hj)).1

variable (h : RowsFit m bound) (hlength : labels.length = m.size)

include h hlength

theorem inRange_within (hi : i < m.size) :
    InRange (2 ^ 1022) (within (m.cell i) i (indicesWith labels own)) := by
  have hcount := hlength ▸ length_indicesWith_le labels own
  rw [within]
  split
  · exact inRange_zero (by positivity)
  · refine inRange_meanOver h hi (fun j hj => ?_) ?_ (by omega) (by omega)
    · exact lt_size_of_mem_indicesWith hlength (List.mem_of_mem_filter hj)
    · exact (List.length_filter_le _ _).trans hcount

theorem inRange_nearestOther? (hi : i < m.size) {b : Float}
    (hb : nearestOther? (m.cell i) own (groupByLabel labels.zipIdx) = some b) :
    InRange (2 ^ 1022) b := by
  rw [nearestOther?_eq_leastOf] at hb
  obtain ⟨label, hlabel, -, rfl⟩ := mem_otherMeans.mp (isMinimum_of_leastOf hb).1
  obtain ⟨j, hj⟩ := List.mem_iff_getElem?.mp hlabel
  exact inRange_meanOver h hi (fun _ => lt_size_of_mem_indicesWith hlength)
    (hlength ▸ length_indicesWith_le labels label)
    (List.length_pos_of_mem (mem_indicesWith.mpr hj))
    (hlength ▸ length_indicesWith_le labels label)

/-- **Every coefficient** is a number in the range. -/
theorem within_coefficient (hi : labels[i]? = some own) :
    Within 1 (coefficient (m.cell i) i own (groupByLabel labels.zipIdx)) := by
  have hlt : i < m.size := hlength ▸ (List.getElem?_eq_some_iff.mp hi).1
  rw [coefficient, lookup_groupByLabel_zipIdx (List.mem_of_getElem? hi), Option.getD_some]
  split
  · exact (inRange_zero zero_le_one).within
  · rename_i b hb
    exact within_ofDistances (inRange_within h hlength hlt)
      (inRange_nearestOther? h hlength hlt hb)

end matrix

/-! ### Silhouettes -/

theorem mem_of_mem_values_ofList {β : Type} {ids : List BlockId} {values : List β} {value : β}
    (h : value ∈ (Roster.ofList (ids.zip values)).values) : value ∈ values := by
  obtain ⟨id, hid⟩ := Roster.mem_values_iff.mp h
  rw [Roster.get?_ofList] at hid
  exact (List.of_mem_zip (List.mem_reverse.mp (mem_of_lookupEntry hid))).2

/-- **Scores and their mean** are numbers from -1 to 1, if the sum of a row cannot overflow. -/
theorem ofAssignment_inRange {m : ScoreMatrix Float} {bound : ℚ} (h : RowsFit m bound)
    {assignment : Assignment} {silhouette : Silhouette Float}
    (hok : ofAssignment m assignment = .ok silhouette) :
    (∀ score ∈ silhouette.scores.values, Within 1 score) ∧ Within 1 silhouette.mean := by
  obtain ⟨-, labels, hlabels, hmany, heq⟩ := exists_labels_of_not_fails fun fault hfails => by
    rw [ofAssignment_eq_error_iff.mpr hfails] at hok
    cases hok
  have hlength : labels.length = m.size := length_eq_of_labels hlabels
  rw [heq, ofLabels_eq] at hok
  dsimp only at hok
  rw [if_neg (Nat.not_lt.mpr hmany)] at hok
  obtain rfl := Except.ok.inj hok
  have hscores : ∀ score ∈ labels.zipIdx.map fun entry =>
      coefficient (m.cell entry.2) entry.2 entry.1 (groupByLabel labels.zipIdx), Within 1 score := by
    intro score hscore
    obtain ⟨entry, hentry, rfl⟩ := List.mem_map.mp hscore
    exact within_coefficient h hlength (List.mem_zipIdx_iff_getElem?.mp hentry)
  refine ⟨fun score hscore => hscores score (mem_of_mem_values_ofList hscore), ?_⟩
  have hsome : labels ≠ [] := by
    rintro rfl
    simp at hmany
  have hsize := h.size_lt
  refine within_mean ?_ ?_ hscores
  · rw [List.length_map, List.length_zipIdx]
    exact List.length_pos_of_ne_nil hsome
  · rw [List.length_map, List.length_zipIdx, hlength]
    omega

end BlockAffinity.Silhouette
