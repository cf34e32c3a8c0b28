import BlockAffinity.Proofs.Linkage.MeansInRange
import BlockAffinity.Proofs.Linkage.WardInRange
import BlockAffinity.Proofs.Silhouette.InRange

/-!
# BlockAffinity.Proofs.Analysis.DoubleRange

**Which distances a clustering can be computed from.** A valid matrix may hold any finite distances, and
three blocks that are all `1.5e308` apart are enough to leave the range of doubles everywhere: their mean
distance is infinite with average linkage and zero with Ward linkage, which takes the root of something
that is no number and has been raised to zero, and a coefficient of their silhouette is a NaN
(`Analysis.range_left`).

Away from both ends of the range this does not happen. How far away depends on what is computed: sums of
as many distances as there are pairs, squares of distances, or sums of a row
(`Analysis.range_kept`).
-/

namespace BlockAffinity

open Scalar Double

/-! ### Entries of a valid matrix -/

/-- What compares as zero is a zero. -/
theorem Double.inRange_of_eq_zero {x : Float} (h : eq x zero = true) : InRange 0 x := by
  have hcompare : (unpacked x).compare (unpacked zero) = some .eq := by
    rw [eq_eq, Float.Model.UnpackedFloat.beq, beq_iff_eq] at h
    exact h
  obtain ⟨hnumber, -, hrank⟩ := compare_eq_some_iff.mp hcompare
  rw [compare_eq_iff_eq] at hrank
  -- no other double has the sign class of a zero
  have hclass : (ofLex (rank (unpacked x))).1 = 0 := congrArg (fun r => (ofLex r).1) hrank
  have hzero : (unpacked x).isFinite = true ∧ value (unpacked x) = 0 := by
    generalize unpacked x = u at *
    rcases u with ⟨⟨⟩⟩ | _ | _ | ⟨⟨⟩, m, e, hm⟩ <;> first
      | contradiction
      | exact absurd hclass (show (1 : ℤ) ≠ 0 from one_ne_zero)
      | exact ⟨rfl, rfl⟩
  exact ⟨hzero.1, hzero.2.ge, hzero.2.le⟩

/-- All cells of a valid matrix are in the range up to a finite bound. -/
theorem ScoreMatrix.inRange_of_valid {m : ScoreMatrix Float} (hvalid : m.validate = .ok ())
    {bound : Float} (hbound : isFinite bound = true) {i j : Nat} (hi : i < m.size)
    (hj : j < m.size) (hle : le (m.cell i j) bound = true) :
    InRange (toRat bound) (m.cell i j) := by
  have hcell : InRange (toRat (m.cell i j)) (m.cell i j) := by
    by_cases hij : i = j
    · subst hij
      obtain ⟨value, hvalue, hzero⟩ := diagonal_of_valid hvalid hi
      rw [cell, hvalue, Option.getD_some]
      have hrange := inRange_of_eq_zero hzero
      exact ⟨hrange.finite, hrange.nonneg, le_rfl⟩
    · obtain ⟨value, hvalue, hfinite, hlt⟩ := entry_of_valid hvalid hi hj hij
      rw [cell, hvalue, Option.getD_some]
      exact inRange_of_lt_zero hfinite hlt
  exact hcell.weaken ((lt_eq_false_iff_toRat hbound hcell.finite).mp (OrderedScalar.le_iff.mp hle).2.2)

namespace Analysis

/-- **Clustering and silhouettes stay in the range of doubles** for distances away from its ends. With
average linkage merge distances are finite if the number of pairs times the largest distance does not
come near the largest double, and positive if all distances are. With Ward linkage the same holds of the
squares, and a distance must not be so small that its square is lost. Coefficients and their mean are
numbers from -1 to 1 if the sum of a row is finite. The number of blocks is what a machine can hold a
matrix of. -/
theorem range_kept (m : ScoreMatrix Float) (hsize : m.size < 2 ^ 30) (hvalid : m.validate = .ok ())
    (bound : Float) (hbound : isFinite bound = true)
    (hcells : ∀ i j, i < m.size → j < m.size → le (m.cell i j) bound = true) :
    (m.size * m.size * toRat bound ≤ 2 ^ 1021 →
      ∃ tree, Dendrogram.ofMatrix .average m = .ok tree ∧
        ∀ merge ∈ tree.merges, isFinite merge.distance = true ∧
          ((∀ i j, i < j → j < m.size → lt zero (m.cell i j) = true) →
            lt zero merge.distance = true)) ∧
    (m.size * m.size * toRat bound ^ 2 ≤ 2 ^ 1020 →
      ∃ tree, Dendrogram.ofMatrix .ward m = .ok tree ∧
        ∀ merge ∈ tree.merges, isFinite merge.distance = true ∧
          ((∀ i j, i < j → j < m.size → 2 ^ (-500 : ℤ) ≤ toRat (m.cell i j)) →
            lt zero merge.distance = true)) ∧
    (m.size * toRat bound ≤ 2 ^ 1021 →
      ∀ assignment silhouette, Silhouette.ofAssignment m assignment = .ok silhouette →
        (∀ score ∈ silhouette.scores.values, le (-one) score = true ∧ le score one = true) ∧
          le (-one) silhouette.mean = true ∧ le silhouette.mean one = true) := by
  have hrange : ∀ i j, i < m.size → j < m.size → InRange (toRat bound) (m.cell i j) :=
    fun i j hi hj => m.inRange_of_valid hvalid hbound hi hj (hcells i j hi hj)
  have hupper : ∀ i j, i < j → j < m.size → InRange (toRat bound) (m.cell i j) :=
    fun i j hij hj => hrange i j (hij.trans hj) hj
  refine ⟨fun hfits => ?_, fun hfits => ?_, fun hfits => ?_⟩
  · have htree := Dendrogram.ofMatrix_of_valid .average hvalid
    refine ⟨_, htree, fun merge hmerge => ?_⟩
    obtain ⟨hfinite, hpositive⟩ :=
      Dendrogram.average_inRange hsize htree hupper hbound hfits merge hmerge
    refine ⟨hfinite, fun hpos => (lt_iff_toRat rfl hfinite).mpr (hpositive fun i j hij hj => ?_)⟩
    exact (lt_iff_toRat rfl (hupper i j hij hj).finite).mp (hpos i j hij hj)
  · have htree := Dendrogram.ofMatrix_of_valid .ward hvalid
    refine ⟨_, htree, fun merge hmerge => ?_⟩
    obtain ⟨hfinite, hpositive⟩ :=
      Dendrogram.ward_inRange hsize hvalid htree hupper hfits merge hmerge
    exact ⟨hfinite, fun hlow => (lt_iff_toRat rfl hfinite).mpr (hpositive hlow)⟩
  · intro assignment silhouette hok
    obtain ⟨hscores, hmean⟩ := Silhouette.ofAssignment_inRange ⟨hsize, hrange, hfits⟩ hok
    exact ⟨fun score hscore => (hscores score hscore).le_one, hmean.le_one⟩

/-- A result that can be evaluated to have a property is a value with the property. -/
theorem exists_ok_of_any {ε α : Type} {result : Except ε α} {p : α → Bool}
    (h : result.toOption.any p = true) : ∃ a, result = .ok a ∧ p a = true := by
  cases result with
  | error _ => cases h
  | ok a => exact ⟨a, rfl, h⟩

/-- Distances of two and four are in the range, and so is everything that is computed from them. -/
theorem range_kept_fourBlocks :
    (∃ tree, Dendrogram.ofMatrix .average ScoreMatrix.fourBlocks = .ok tree ∧
      ∀ merge ∈ tree.merges, isFinite merge.distance = true ∧ lt zero merge.distance = true) ∧
    (∃ tree, Dendrogram.ofMatrix .ward ScoreMatrix.fourBlocks = .ok tree ∧
      ∀ merge ∈ tree.merges, isFinite merge.distance = true ∧ lt zero merge.distance = true) ∧
    ∃ silhouette, Silhouette.ofAssignment ScoreMatrix.fourBlocks
        (.ofLabels ScoreMatrix.fourBlocks.ids [1, 1, 2, 2]) = .ok silhouette ∧
      le (-one) silhouette.mean = true ∧ le silhouette.mean one = true := by
  have hfour : toRat (4 : Float) = 4 := by
    rw [toRat_of_unpacked (m := 2 ^ 52) (e := -50) (h := by decide) (by rfl)]
    norm_num
  have htwo : toRat (2 : Float) = 2 := by
    rw [toRat_of_unpacked (m := 2 ^ 52) (e := -51) (h := by decide) (by rfl)]
    norm_num
  have hle : ∀ i < 4, ∀ j < 4, le (ScoreMatrix.fourBlocks.cell i j) 4 = true := by decide +kernel
  have hentries : ∀ i < 4, ∀ j < 4, i < j → ScoreMatrix.fourBlocks.cell i j = 2 ∨
      ScoreMatrix.fourBlocks.cell i j = 4 := by decide +kernel
  have hpos : ∀ i j, i < j → j < ScoreMatrix.fourBlocks.size →
      lt zero (ScoreMatrix.fourBlocks.cell i j) = true := by
    intro i j hij hj
    rcases hentries i (hij.trans hj) j hj hij with heq | heq <;> rw [heq] <;> decide +kernel
  have hlow : ∀ i j, i < j → j < ScoreMatrix.fourBlocks.size →
      2 ^ (-500 : ℤ) ≤ toRat (ScoreMatrix.fourBlocks.cell i j) := by
    intro i j hij hj
    have hsmall : (2 : ℚ) ^ (-500 : ℤ) ≤ 1 := zpow_le_one_of_nonpos₀ (by norm_num) (by norm_num)
    rcases hentries i (hij.trans hj) j hj hij with heq | heq <;> rw [heq]
    · rw [htwo]
      linarith
    · rw [hfour]
      linarith
  have hwide : (2 : ℚ) ^ 20 ≤ 2 ^ 1020 := pow_le_pow_right₀ one_le_two (by norm_num)
  have hwider : (2 : ℚ) ^ 20 ≤ 2 ^ 1021 := pow_le_pow_right₀ one_le_two (by norm_num)
  have hcount : (ScoreMatrix.fourBlocks.size : ℚ) = 4 := by
    norm_num [ScoreMatrix.fourBlocks, ScoreMatrix.size]
  obtain ⟨haverage, hward, hsilhouette⟩ := range_kept ScoreMatrix.fourBlocks (by decide)
    ScoreMatrix.fourBlocks_valid 4 (by decide +kernel) fun i j hi hj => hle i hi j hj
  rw [hcount, hfour] at haverage hward hsilhouette
  obtain ⟨average, haverage, hmeans⟩ := haverage (le_trans (by norm_num) hwider)
  obtain ⟨ward, hward, hsquares⟩ := hward (le_trans (by norm_num) hwide)
  refine ⟨⟨average, haverage, fun merge hmerge => ?_⟩, ⟨ward, hward, fun merge hmerge => ?_⟩, ?_⟩
  · exact ⟨(hmeans merge hmerge).1, (hmeans merge hmerge).2 hpos⟩
  · exact ⟨(hsquares merge hmerge).1, (hsquares merge hmerge).2 hlow⟩
  · have hok : (Silhouette.ofAssignment ScoreMatrix.fourBlocks
        (.ofLabels ScoreMatrix.fourBlocks.ids [1, 1, 2, 2])).toOption.any (fun _ => true) = true := by
      decide +kernel
    obtain ⟨silhouette, heq, -⟩ := exists_ok_of_any hok
    exact ⟨silhouette, heq, (hsilhouette (le_trans (by norm_num) hwider) _ _ heq).2⟩

/-- Three blocks that are as far apart as doubles nearly allow. -/
def farBlocks : ScoreMatrix Float where
  ids := [⟨"a"⟩, ⟨"b"⟩, ⟨"c"⟩]
  values := #[0, 1.5e308, 1.5e308, 1.5e308, 0, 1.5e308, 1.5e308, 1.5e308, 0]

theorem farBlocks_valid : farBlocks.validate = .ok () := by
  refine ScoreMatrix.validate_eq_ok_iff.mpr (Option.isNone_iff_eq_none.mp ?_)
  decide +kernel

/-- **Being valid is not enough**: distances near the largest double are all positive, yet a mean of them
is infinite, a Ward distance is zero, and the silhouette is no number. -/
theorem range_left :
    farBlocks.validate = .ok () ∧
    (∀ i j, i < j → j < farBlocks.size → lt zero (farBlocks.cell i j) = true) ∧
    (∃ tree, Dendrogram.ofMatrix .average farBlocks = .ok tree ∧
      ∃ merge ∈ tree.merges, isFinite merge.distance = false) ∧
    (∃ tree, Dendrogram.ofMatrix .ward farBlocks = .ok tree ∧
      ∃ merge ∈ tree.merges, lt zero merge.distance = false) ∧
    ∃ silhouette, Silhouette.ofAssignment farBlocks (.ofLabels farBlocks.ids [1, 1, 2]) =
        .ok silhouette ∧
      (∃ score ∈ silhouette.scores.values, isNaN score = true) ∧ isNaN silhouette.mean = true := by
  refine ⟨farBlocks_valid, ?_, ?_, ?_, ?_⟩
  · have hall : ∀ i < 3, ∀ j < 3, i < j → lt zero (farBlocks.cell i j) = true := by decide +kernel
    exact fun i j hij hj => hall i (hij.trans hj) j hj hij
  · have hany : (Dendrogram.ofMatrix .average farBlocks).toOption.any
        (fun tree => tree.merges.any fun merge => !isFinite merge.distance) = true := by decide +kernel
    obtain ⟨tree, heq, hmerges⟩ := exists_ok_of_any hany
    obtain ⟨merge, hmerge, hinfinite⟩ := List.any_eq_true.mp hmerges
    exact ⟨tree, heq, merge, hmerge, (Bool.not_eq_true' _).mp hinfinite⟩
  · have hany : (Dendrogram.ofMatrix .ward farBlocks).toOption.any
        (fun tree => tree.merges.any fun merge => !lt zero merge.distance) = true := by decide +kernel
    obtain ⟨tree, heq, hmerges⟩ := exists_ok_of_any hany
    obtain ⟨merge, hmerge, hzero⟩ := List.any_eq_true.mp hmerges
    exact ⟨tree, heq, merge, hmerge, (Bool.not_eq_true' _).mp hzero⟩
  · have hany : (Silhouette.ofAssignment farBlocks (.ofLabels farBlocks.ids [1, 1, 2])).toOption.any
        (fun silhouette => silhouette.scores.values.any isNaN && isNaN silhouette.mean) = true := by
      decide +kernel
    obtain ⟨silhouette, heq, hnan⟩ := exists_ok_of_any hany
    obtain ⟨hscore, hmean⟩ := (Bool.and_eq_true _ _).mp hnan
    exact ⟨silhouette, heq, List.any_eq_true.mp hscore, hmean⟩

end Analysis

end BlockAffinity
