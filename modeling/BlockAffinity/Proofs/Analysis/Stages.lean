import BlockAffinity.Analysis
import BlockAffinity.Proofs.Except
import BlockAffinity.Proofs.Linkage.Cut

/-!
# BlockAffinity.Proofs.Analysis.Stages

**What can stop a run.** Once scores are there, a run goes through exactly if their distances are
valid (`exists_run_eq_ok`, `validate_of_run`): the dendrogram of a valid matrix can be cut at any
threshold that is a number, a cut labels every block, and a silhouette that does not exist is no
fault.
-/

namespace BlockAffinity

open Scalar

variable {α : Type} [Scalar α]

namespace Silhouette

omit [Scalar α] in
/-- Every block of the matrix has a label. -/
theorem exists_labelsOf?_eq_ok {assignment : Assignment} {ids : List BlockId}
    (h : ∀ id ∈ ids, id ∈ assignment.ids) :
    ∃ labels, labelsOf? (α := α) assignment ids = .ok labels := by
  refine exists_mapM_eq_ok fun id hid => ?_
  obtain ⟨⟨key, label⟩, hentry, rfl⟩ := List.mem_map.mp (h id hid)
  exact ⟨label, by rw [Roster.mem_entries_iff.mp hentry]⟩

/-- Labelled blocks have a silhouette, or there is no silhouette for too few clusters. -/
theorem ofLabels_cases (m : ScoreMatrix α) (labels : List Nat) :
    (∃ silhouette, ofLabels m labels = .ok silhouette) ∨
      ∃ gap, ofLabels m labels = .error (.undefinedSilhouette gap) := by
  unfold ofLabels
  dsimp only
  split
  · exact Or.inr ⟨_, rfl⟩
  · exact Or.inl ⟨_, rfl⟩

end Silhouette

namespace Analysis

variable {settings : Settings α} {profiles : Profiles α} {distances : ScoreMatrix α}
  {assignment : Assignment} {tree : Dendrogram α} {kept : Option (Scores α)}

/-- **Evaluating never fails** for a valid matrix whose blocks all have labels. -/
theorem exists_evaluate_eq_ok (hvalid : distances.validate = .ok ())
    (hids : ∀ id ∈ distances.ids, id ∈ assignment.ids) :
    ∃ evaluated, evaluate distances assignment = .ok evaluated := by
  have hcases : (∃ silhouette, Silhouette.ofAssignment distances assignment = .ok silhouette) ∨
      ∃ gap, Silhouette.ofAssignment distances assignment =
        .error (.undefinedSilhouette gap) := by
    unfold Silhouette.ofAssignment
    rw [hvalid]
    obtain ⟨labels, hlabels⟩ := Silhouette.exists_labelsOf?_eq_ok (α := α) hids
    rw [hlabels]
    by_cases hempty : distances.isEmpty = true
    · exact Or.inr ⟨.noBlocks, by simp [hempty, bind, Except.bind]⟩
    · have hsilhouette := Silhouette.ofLabels_cases distances labels
      simpa [hempty, bind, Except.bind] using hsilhouette
  unfold evaluate
  rcases hcases with ⟨silhouette, h⟩ | ⟨gap, h⟩
  · exact ⟨.ok silhouette, by rw [h]⟩
  · exact ⟨.error gap, by rw [h]⟩

/-- The mean silhouette is the mean of the silhouette that evaluating finds. -/
theorem meanSilhouette?_eq (distances : ScoreMatrix α) (assignment : Assignment) :
    meanSilhouette? distances assignment = (evaluate distances assignment).map fun evaluated =>
      evaluated.toOption.map Silhouette.mean := by
  unfold meanSilhouette? evaluate
  cases Silhouette.ofAssignment distances assignment with
  | ok silhouette => rfl
  | error fault => cases fault <;> rfl

/-- The dendrogram of a matrix can be cut, and the cut labels every block. -/
theorem exists_cut_eq_ok {linkage : Linkage} (htree : Dendrogram.ofMatrix linkage distances = .ok tree)
    (hids : distances.ids.Nodup) {threshold : α} (hnumber : isNaN threshold = false) :
    ∃ flat, tree.cut distances.ids threshold = .ok flat ∧ flat.ids = distances.ids := by
  obtain ⟨flat, hcut, -⟩ := Dendrogram.cut_ofMatrix htree hids rfl hnumber
  obtain ⟨-, -, joined, -, rfl⟩ := Dendrogram.cut_eq_ok_iff.mp hcut
  exact ⟨_, hcut, Assignment.ids_ofLabels hids (joined.length_labels _)⟩

theorem exists_sweepPoint_eq_ok {linkage : Linkage} (hvalid : distances.validate = .ok ())
    (htree : Dendrogram.ofMatrix linkage distances = .ok tree) (hids : distances.ids.Nodup)
    {threshold : α} (hnumber : isNaN threshold = false) :
    ∃ point, sweepPoint distances tree threshold = .ok point := by
  obtain ⟨flat, hcut, hflat⟩ := exists_cut_eq_ok htree hids hnumber
  obtain ⟨evaluated, hevaluated⟩ := exists_evaluate_eq_ok hvalid fun id hid => hflat ▸ hid
  have hmean := meanSilhouette?_eq distances flat
  rw [hevaluated] at hmean
  exact ⟨_, bind_eq_ok_iff.mpr ⟨flat, hcut, bind_eq_ok_iff.mpr ⟨_, hmean, rfl⟩⟩⟩

theorem exists_describe_eq_ok (profiles : Profiles α) (hvalid : distances.validate = .ok ())
    (hids : ∀ id ∈ distances.ids, id ∈ assignment.ids) :
    ∃ flat, describe profiles distances assignment = .ok flat := by
  obtain ⟨evaluated, hevaluated⟩ := exists_evaluate_eq_ok hvalid hids
  exact ⟨_, bind_eq_ok_iff.mpr ⟨evaluated, hevaluated, rfl⟩⟩

/-- Clustering gives the dendrogram and labels for all blocks or none at all. -/
theorem exists_cluster_eq_ok (hvalid : distances.validate = .ok ()) (hids : distances.ids.Nodup)
    (hnumber : ∀ threshold ∈ settings.threshold, isNaN threshold = false) :
    ∃ tree assignment, cluster settings distances = .ok (tree, assignment) ∧
      Dendrogram.ofMatrix settings.linkage distances = .ok tree ∧
      ∀ flat ∈ assignment, flat.ids = distances.ids := by
  have htree := Dendrogram.ofMatrix_of_valid settings.linkage hvalid
  unfold cluster
  cases hthreshold : settings.threshold with
  | none => exact ⟨_, none, by rw [htree]; rfl, htree, by simp⟩
  | some threshold =>
      obtain ⟨flat, hcut, hflat⟩ := exists_cut_eq_ok htree hids (hnumber threshold hthreshold)
      refine ⟨_, some flat, ?_, htree, ?_⟩
      · exact bind_eq_ok_iff.mpr ⟨_, htree, bind_eq_ok_iff.mpr ⟨flat, hcut, rfl⟩⟩
      · rintro _ ⟨rfl⟩
        exact hflat

/-- **A run goes through** if the distances that it works with are valid and its thresholds are
numbers. -/
theorem exists_run_eq_ok (skipped : Nat) {scores : Scores α} {fromCache : Bool}
    (hchoice : chooseScores settings profiles kept = .ok (scores, fromCache))
    (hvalid : scores.distances.validate = .ok ()) (hids : scores.distances.ids.Nodup)
    (hnumber : ∀ value ∈ settings.threshold.toList ++ settings.sweep, isNaN value = false) :
    ∃ a, run settings profiles skipped kept = .ok a ∧ a.profiles = profiles ∧ a.scores = scores := by
  obtain ⟨tree, assignment, hcluster, htree, hflat⟩ :=
    exists_cluster_eq_ok hvalid hids fun threshold hmem =>
      hnumber threshold (List.mem_append_left _ (Option.mem_toList.mpr hmem))
  have hdescribe : ∃ flat, assignment.mapM (describe profiles scores.distances) = .ok flat := by
    cases assignment with
    | none => exact ⟨none, rfl⟩
    | some labels =>
        have hlabels := hflat labels rfl
        obtain ⟨flat, h⟩ := exists_describe_eq_ok profiles hvalid
          fun id hid => hlabels ▸ hid
        exact ⟨some flat, by rw [Option.mapM_some, h]; rfl⟩
  obtain ⟨flat, hdescribe⟩ := hdescribe
  obtain ⟨points, hsweep⟩ : ∃ points, sweep settings scores.distances tree = .ok points :=
    exists_mapM_eq_ok fun threshold hmem =>
      exists_sweepPoint_eq_ok hvalid htree hids (hnumber threshold (List.mem_append_right _ hmem))
  refine ⟨_, bind_eq_ok_iff.mpr ⟨(scores, fromCache), hchoice, bind_eq_ok_iff.mpr
    ⟨(tree, assignment), hcluster, bind_eq_ok_iff.mpr ⟨flat, hdescribe, bind_eq_ok_iff.mpr
      ⟨points, hsweep, rfl⟩⟩⟩⟩, rfl, rfl⟩

/-- What a run that goes through has gone through, and what it puts together from it. -/
theorem exists_of_run {skipped : Nat} {a : Analysis α}
    (h : run settings profiles skipped kept = .ok a) :
    ∃ scores fromCache tree assignment flat points,
      chooseScores settings profiles kept = .ok (scores, fromCache) ∧
      cluster settings scores.distances = .ok (tree, assignment) ∧
      assignment.mapM (describe profiles scores.distances) = .ok flat ∧
      sweep settings scores.distances tree = .ok points ∧
      a = {
        profiles
        scores
        entropy := Entropy.entries profiles
        report := {
          version
          input := none
          settings
          blocks := profiles.ids
          skipped
          nonFinite := scores.nonFinite
          fromCache
          tree
          flat
          sweep := points } } := by
  obtain ⟨⟨scores, fromCache⟩, hchoice, h⟩ := bind_eq_ok_iff.mp h
  obtain ⟨⟨tree, assignment⟩, hcluster, h⟩ := bind_eq_ok_iff.mp h
  obtain ⟨flat, hflat, h⟩ := bind_eq_ok_iff.mp h
  obtain ⟨points, hpoints, h⟩ := bind_eq_ok_iff.mp h
  exact ⟨scores, fromCache, tree, assignment, flat, points, hchoice, hcluster, hflat, hpoints,
    (Except.ok.inj h).symm⟩

/-- Clustering builds the dendrogram and cuts it if there is a threshold. -/
theorem cluster_eq_ok_iff {cut : Option Assignment} :
    cluster settings distances = .ok (tree, cut) ↔
      Dendrogram.ofMatrix settings.linkage distances = .ok tree ∧
        settings.threshold.mapM (tree.cut distances.ids) = .ok cut := by
  rw [cluster, bind_eq_ok_iff]
  cases settings.threshold with
  | none =>
      constructor
      · rintro ⟨_, htree, h⟩
        cases h
        exact ⟨htree, rfl⟩
      · rintro ⟨htree, h⟩
        cases h
        exact ⟨tree, htree, rfl⟩
  | some threshold =>
      rw [Option.mapM_some]
      constructor
      · rintro ⟨_, htree, h⟩
        obtain ⟨flat, hcut, h⟩ := bind_eq_ok_iff.mp h
        cases h
        refine ⟨htree, ?_⟩
        rw [hcut]
        rfl
      · rintro ⟨htree, h⟩
        obtain ⟨flat, hcut, rfl⟩ := exists_of_map_eq_ok h
        exact ⟨tree, htree, bind_eq_ok_iff.mpr ⟨flat, hcut, rfl⟩⟩

theorem skipped_of_run {skipped : Nat} {a : Analysis α}
    (h : run settings profiles skipped kept = .ok a) : a.report.skipped = skipped := by
  obtain ⟨_, _, _, _, _, _, -, -, -, -, rfl⟩ := exists_of_run h
  rfl

theorem profiles_of_run {skipped : Nat} {a : Analysis α}
    (h : run settings profiles skipped kept = .ok a) : a.profiles = profiles := by
  obtain ⟨_, _, _, _, _, _, -, -, -, -, rfl⟩ := exists_of_run h
  rfl

/-- The report has the dendrogram of the distances. -/
theorem tree_of_run {skipped : Nat} {a : Analysis α}
    (h : run settings profiles skipped kept = .ok a) :
    Dendrogram.ofMatrix settings.linkage a.scores.distances = .ok a.report.tree := by
  obtain ⟨_, _, _, _, _, _, -, hcluster, -, -, rfl⟩ := exists_of_run h
  exact (cluster_eq_ok_iff.mp hcluster).1

/-- The report has flat clusters if there is a threshold, and they are those of the cut there. -/
theorem flat_of_run {skipped : Nat} {a : Analysis α}
    (h : run settings profiles skipped kept = .ok a) :
    (settings.threshold = none ∧ a.report.flat = none) ∨
      ∃ threshold flat, settings.threshold = some threshold ∧ a.report.flat = some flat ∧
        a.report.tree.cut a.scores.distances.ids threshold = .ok flat.assignment ∧
        evaluate a.scores.distances flat.assignment = .ok flat.silhouette ∧
        flat.summaries = ClusterSummary.ofAssignment flat.assignment profiles := by
  obtain ⟨scores, _, tree, assignment, flat, _, -, hcluster, hflat, -, rfl⟩ := exists_of_run h
  obtain ⟨-, hcut⟩ := cluster_eq_ok_iff.mp hcluster
  cases hthreshold : settings.threshold with
  | none =>
      rw [hthreshold] at hcut
      cases hcut
      cases hflat
      exact .inl ⟨rfl, rfl⟩
  | some threshold =>
      rw [hthreshold, Option.mapM_some] at hcut
      obtain ⟨labels, hlabels, rfl⟩ := exists_of_map_eq_ok hcut
      rw [Option.mapM_some] at hflat
      obtain ⟨clusters, hdescribe, rfl⟩ := exists_of_map_eq_ok hflat
      obtain ⟨evaluated, hevaluated, hclusters⟩ := bind_eq_ok_iff.mp hdescribe
      cases hclusters
      exact .inr ⟨threshold, _, rfl, rfl, hlabels, hevaluated, rfl⟩

/-- The report has one point for each threshold of the sweep, in order. -/
theorem sweep_of_run {skipped : Nat} {a : Analysis α}
    (h : run settings profiles skipped kept = .ok a) :
    settings.sweep.map (sweepPoint a.scores.distances a.report.tree) =
      a.report.sweep.map .ok := by
  obtain ⟨_, _, _, _, _, _, -, -, -, hsweep, rfl⟩ := exists_of_run h
  exact mapM_eq_ok_iff.mp hsweep

/-- A run that goes through has worked with valid distances. -/
theorem validate_of_run {skipped : Nat} {a : Analysis α}
    (h : run settings profiles skipped kept = .ok a) :
    ∃ fromCache, chooseScores settings profiles kept = .ok (a.scores, fromCache) ∧
      a.scores.distances.validate = .ok () := by
  obtain ⟨scores, fromCache, tree, assignment, flat, points, hchoice, hcluster, -, -, rfl⟩ :=
    exists_of_run h
  obtain ⟨tree', htree, -⟩ := bind_eq_ok_iff.mp hcluster
  obtain ⟨_, hvalid, -⟩ := bind_eq_ok_iff.mp htree
  exact ⟨fromCache, hchoice, hvalid⟩

end Analysis

end BlockAffinity
