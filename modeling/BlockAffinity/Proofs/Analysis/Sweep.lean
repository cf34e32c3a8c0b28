import BlockAffinity.Proofs.Analysis.Kept
import BlockAffinity.Proofs.Analysis.Totality
import BlockAffinity.Report.Documents

/-!
# BlockAffinity.Proofs.Analysis.Sweep

**A sweep says what runs at its thresholds would say.** A point of the sweep cuts the dendrogram by
itself and looks for the mean silhouette on its own. A run that has the threshold of the point as
its only change goes through as well, on the same scores and with the same dendrogram, and its flat
clusters have the number and the mean that the point gives (`run_at_sweepThreshold`).

Scores depend on the metric and the dendrogram on the linkage, so the first part of two runs that
differ in thresholds is the same (`scores_of_run`, `tree_eq_of_run`), and a point depends on nothing
but that part and its own threshold.
-/

namespace BlockAffinity

variable {α : Type} [Scalar α]

/-- A threshold of the sweep can be the threshold of the cut. -/
theorem Settings.validate_withThreshold {settings : Settings α} {threshold : α}
    (hmem : threshold ∈ settings.sweep) (h : settings.validate = .ok ()) :
    { settings with threshold := some threshold }.validate = .ok () := by
  have hgood : ∀ value ∈ settings.sweep, ¬ (!isThreshold value) = true := by
    unfold validate at h
    split at h
    · rename_i hnone
      exact fun value hvalue =>
        List.find?_eq_none.mp hnone value (List.mem_append_right _ hvalue)
    · cases h
  have hnone : Settings.badThreshold? { settings with threshold := some threshold } = none := by
    refine List.find?_eq_none.mpr fun value hvalue => ?_
    rcases List.mem_append.mp hvalue with hown | hsweep
    · rw [Option.mem_toList] at hown
      exact Option.some.inj hown ▸ hgood threshold hmem
    · exact hgood value hsweep
  rw [validate, hnone]

namespace Analysis

variable {settings settings' : Settings α} {profiles : Profiles α} {kept : Option (Scores α)}
  {skipped skipped' : Nat} {a a' : Analysis α}

/-- Which scores a run works with depends on the metric only. -/
theorem chooseScores_congr (h : settings'.metric = settings.metric) (profiles : Profiles α)
    (kept : Option (Scores α)) :
    chooseScores settings' profiles kept = chooseScores settings profiles kept := by
  unfold chooseScores
  rw [score_congr h]

/-- Runs with the same metric work with the same scores. -/
theorem scores_of_run (hmetric : settings'.metric = settings.metric)
    (h : run settings profiles skipped kept = .ok a)
    (h' : run settings' profiles skipped' kept = .ok a') : a'.scores = a.scores := by
  obtain ⟨fromCache, hchoice, -⟩ := validate_of_run h
  obtain ⟨fromCache', hchoice', -⟩ := validate_of_run h'
  rw [chooseScores_congr hmetric, hchoice] at hchoice'
  exact (congrArg Prod.fst (Except.ok.inj hchoice')).symm

/-- Runs with the same metric and linkage have the same dendrogram. -/
theorem tree_eq_of_run (hmetric : settings'.metric = settings.metric)
    (hlinkage : settings'.linkage = settings.linkage)
    (h : run settings profiles skipped kept = .ok a)
    (h' : run settings' profiles skipped' kept = .ok a') : a'.report.tree = a.report.tree := by
  have htree' := tree_of_run h'
  rw [scores_of_run hmetric h h', hlinkage, tree_of_run h] at htree'
  exact (Except.ok.inj htree').symm

/-- Each threshold of the sweep has its point. -/
theorem sweepPoint_of_run (h : run settings profiles skipped kept = .ok a) {k : Nat} {threshold : α}
    (hk : settings.sweep[k]? = some threshold) :
    ∃ point, a.report.sweep[k]? = some point ∧
      sweepPoint a.scores.distances a.report.tree threshold = .ok point := by
  have hpoint := congrArg (·[k]?) (sweep_of_run h)
  simp only [List.getElem?_map, hk, Option.map_some] at hpoint
  obtain ⟨point, hpoint, hok⟩ := Option.map_eq_some_iff.mp hpoint.symm
  exact ⟨point, hpoint, hok.symm⟩

/-- What a point gives is read off the cut at its threshold, evaluated like flat clusters. -/
theorem exists_of_sweepPoint {distances : ScoreMatrix α} {tree : Dendrogram α} {threshold : α}
    {point : SweepPoint α} (h : sweepPoint distances tree threshold = .ok point) :
    ∃ assignment evaluated, tree.cut distances.ids threshold = .ok assignment ∧
      evaluate distances assignment = .ok evaluated ∧
      point = ⟨threshold, assignment.clusterCount, evaluated.toOption.map Silhouette.mean⟩ := by
  obtain ⟨assignment, hcut, h⟩ := bind_eq_ok_iff.mp h
  obtain ⟨mean, hmean, h⟩ := bind_eq_ok_iff.mp h
  rw [meanSilhouette?_eq] at hmean
  obtain ⟨evaluated, hevaluated, rfl⟩ := exists_of_map_eq_ok hmean
  exact ⟨assignment, evaluated, hcut, hevaluated, (Except.ok.inj h).symm⟩

/-- **The sweep agrees with the cut.** If a run goes through, so does the run that is cut at one of
the thresholds of the sweep. It has the same scores and the same dendrogram, and as many clusters
with the same mean silhouette as the point of the sweep says. So the point depends on no other
threshold: any run with the same metric and linkage has the same point for the same threshold,
wherever it stands in the sweep. -/
theorem run_at_sweepThreshold (settings : Settings α) (profiles : Profiles α) (skipped : Nat)
    (kept : Option (Scores α)) (a : Analysis α)
    (h : run settings profiles skipped kept = .ok a) (k : Nat) (threshold : α)
    (hk : settings.sweep[k]? = some threshold) :
    (settings.validate = .ok () →
      { settings with threshold := some threshold }.validate = .ok ()) ∧
    ∃ b point, run { settings with threshold := some threshold } profiles skipped kept = .ok b ∧
      b.scores = a.scores ∧ b.report.tree = a.report.tree ∧
      a.report.sweep[k]? = some point ∧ point.threshold = threshold ∧
      point.clusters = b.report.clusterCount ∧
      point.meanSilhouette = b.report.silhouette?.map Silhouette.mean ∧
      ∀ (other : Settings α) (c : Analysis α) (l : Nat), other.metric = settings.metric →
        other.linkage = settings.linkage → run other profiles skipped kept = .ok c →
        other.sweep[l]? = some threshold → c.report.sweep[l]? = some point := by
  obtain ⟨point, hpoint, hsweepPoint⟩ := sweepPoint_of_run h hk
  obtain ⟨assignment, evaluated, hcut, hevaluated, rfl⟩ := exists_of_sweepPoint hsweepPoint
  refine ⟨Settings.validate_withThreshold (List.mem_of_getElem? hk), ?_⟩
  obtain ⟨scores, fromCache, tree, _, _, points, hchoice, hcluster, -, hpoints, rfl⟩ :=
    exists_of_run h
  -- the stages of the other run, one after the other
  have hchoice' : chooseScores { settings with threshold := some threshold } profiles kept =
      .ok (scores, fromCache) := (chooseScores_congr rfl profiles kept).trans hchoice
  have hcluster' : cluster { settings with threshold := some threshold } scores.distances =
      .ok (tree, some assignment) := by
    refine cluster_eq_ok_iff.mpr ⟨(cluster_eq_ok_iff.mp hcluster).1, ?_⟩
    rw [Option.mapM_some]
    exact congrArg (some <$> ·) hcut
  have hflat' : (some assignment).mapM (describe profiles scores.distances) =
      .ok (some ⟨assignment, evaluated, ClusterSummary.ofAssignment assignment profiles⟩) := by
    rw [Option.mapM_some, show describe profiles scores.distances assignment = _ from
      bind_eq_ok_iff.mpr ⟨evaluated, hevaluated, rfl⟩]
    rfl
  refine ⟨_, _, bind_eq_ok_iff.mpr ⟨(scores, fromCache), hchoice', bind_eq_ok_iff.mpr
    ⟨(tree, some assignment), hcluster', bind_eq_ok_iff.mpr ⟨_, hflat', bind_eq_ok_iff.mpr
      ⟨points, hpoints, rfl⟩⟩⟩⟩, rfl, rfl, hpoint, rfl, rfl, rfl, ?_⟩
  intro other c l hmetric hlinkage hother hl
  obtain ⟨point', hpoint', hsweepPoint'⟩ := sweepPoint_of_run hother hl
  rw [scores_of_run hmetric h hother, tree_eq_of_run hmetric hlinkage h hother, hsweepPoint]
    at hsweepPoint'
  rw [hpoint', Except.ok.inj hsweepPoint']

/-- Two blocks at the second threshold of a sweep, which is not the one of the cut. -/
theorem twoBlocks_at_sweepThreshold :
    let observations : List Observation :=
      [⟨⟨"a"⟩, .instruction, "mov"⟩, ⟨⟨"a"⟩, .leftOperand, "eax"⟩, ⟨⟨"b"⟩, .instruction, "jmp"⟩]
    let settings : Settings Float :=
      { (.standard : Settings Float) with threshold := some 0.5, sweep := [0.75, 0.25] }
    let moved : Settings Float := { settings with threshold := some 0.25 }
    settings.sweep[1]? = some 0.25 ∧ settings.validate = .ok () ∧ moved.validate = .ok () ∧
      ∃ a b point, run settings (Ingest.profilesOf observations) 0 none = .ok a ∧
        run moved (Ingest.profilesOf observations) 0 none = .ok b ∧ b.scores = a.scores ∧
        a.report.sweep[1]? = some point ∧ point.clusters = b.report.clusterCount := by
  intro observations settings moved
  have hsettings : settings.validate = .ok () := by rfl
  have hbounded := Ingest.isBounded_profilesOf (show observations.length < 2 ^ 64 by decide)
  obtain ⟨a, hrun, -⟩ := exists_run_of_isBounded hsettings hbounded 0
  obtain ⟨hvalid, b, point, hmoved, hscores, -, hpoint, -, hclusters, -⟩ :=
    run_at_sweepThreshold settings (Ingest.profilesOf observations) 0 none a hrun 1 0.25 rfl
  exact ⟨rfl, hsettings, hvalid hsettings, a, b, point, hrun, hmoved, hscores, hpoint, hclusters⟩

end Analysis

end BlockAffinity
