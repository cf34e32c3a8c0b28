import BlockAffinity.Proofs.Analysis.Stages
import BlockAffinity.Proofs.ScoreMatrix.Scoring

/-!
# BlockAffinity.Proofs.Analysis.Kept

**Kept scores stand for fresh ones.** The scores of profiles depend on the metric only, so a run that
is given the scores that it would have computed finds out the same, and says that it was given them
(`run_of_kept`). The scores of a run that goes through are finite (`isFinite_of_run`).
-/

namespace BlockAffinity

open Scalar

/-- All values of a matrix are finite. -/
def ScoreMatrix.IsFinite {α : Type} [Scalar α] (m : ScoreMatrix α) : Prop :=
  ∀ value ∈ m.values, isFinite value = true

/-- All values of scores are finite. -/
def Scores.IsFinite {α : Type} [Scalar α] (s : Scores α) : Prop :=
  s.distances.IsFinite ∧ ∀ m ∈ s.similarities, m.IsFinite

/-- An analysis that says whether its scores were kept ones. -/
def Analysis.marked {α : Type} (a : Analysis α) (fromCache : Bool) : Analysis α :=
  { a with report := { a.report with fromCache } }

namespace Analysis

variable {α : Type} [Scalar α] {settings settings' : Settings α} {profiles : Profiles α}
  {scores : Scores α}

/-- Scores depend on the metric only. -/
theorem score_congr (h : settings'.metric = settings.metric) (profiles : Profiles α) :
    score settings' profiles = score settings profiles := by
  rw [score, score, h]

/-- The matrices that scoring makes are made from pairs of the profiled blocks, and its similarities
are finite. -/
theorem exists_ofPairs_of_score (h : score settings profiles = .ok scores) :
    (∃ table, scores.distances = ScoreMatrix.ofPairs profiles.ids table) ∧
      ∀ m ∈ scores.similarities, ∃ table, m = ScoreMatrix.ofPairs profiles.ids table ∧
        ∀ i j, i < j → j < profiles.ids.length → isFinite (table.get i j) = true := by
  rw [score] at h
  cases hmetric : settings.metric with
  | jsd =>
      rw [hmetric] at h
      obtain ⟨distances, hdistances, h⟩ := bind_eq_ok_iff.mp h
      cases h
      rw [ScoreMatrix.divergences, ScoreMatrix.distances, ScoreMatrix.ofScores_eq_ok_iff] at hdistances
      exact ⟨⟨_, hdistances.2⟩, by simp⟩
  | overlap =>
      rw [hmetric] at h
      obtain ⟨similarities, hsimilarities, h⟩ := bind_eq_ok_iff.mp h
      cases h
      rw [ScoreMatrix.overlaps, ScoreMatrix.similarities, ScoreMatrix.ofScores_eq_ok_iff]
        at hsimilarities
      obtain ⟨hfinite, rfl⟩ := hsimilarities
      refine ⟨⟨_, rfl⟩, ?_⟩
      rintro m ⟨rfl⟩
      refine ⟨_, rfl, fun i j hij hj => ?_⟩
      rw [PairTable.get_ofFn _ hij hj]
      exact hfinite i j hij hj

/-- Scores are about the profiled blocks. -/
theorem ids_of_score (h : score settings profiles = .ok scores) :
    scores.distances.ids = profiles.ids := by
  obtain ⟨⟨table, htable⟩, -⟩ := exists_ofPairs_of_score h
  rw [htable, ScoreMatrix.ids_ofPairs]

/-- **A run on the scores that it would have computed** finds out the same. -/
theorem run_of_kept (hscore : score settings profiles = .ok scores) (skipped : Nat) :
    run settings profiles skipped (some scores) =
      (run settings profiles skipped none).map (marked · true) := by
  have hkept : chooseScores settings profiles (some scores) = .ok (scores, true) := by
    rw [chooseScores, if_pos (ids_of_score hscore)]
  have hfresh : chooseScores settings profiles none = .ok (scores, false) := by
    rw [chooseScores, hscore]
    rfl
  rw [run, run, hkept, hfresh]
  dsimp only [bind, Except.bind]
  cases cluster settings scores.distances with
  | error fault => rfl
  | ok clustered =>
      dsimp only
      cases clustered.2.mapM (describe profiles scores.distances) with
      | error fault => rfl
      | ok flat =>
          dsimp only
          cases sweep settings scores.distances clustered.1 with
          | error fault => rfl
          | ok points => rfl

/-- Scores of other blocks are not used. -/
theorem run_of_otherBlocks (hids : scores.distances.ids ≠ profiles.ids) (skipped : Nat) :
    run settings profiles skipped (some scores) = run settings profiles skipped none := by
  have hfresh : chooseScores settings profiles (some scores) = chooseScores settings profiles none := by
    rw [chooseScores, chooseScores, if_neg hids]
  rw [run, run, hfresh]

/-- **Scores of just the profiled blocks are used as they are**: a defect of their distances is the
fault of the run. -/
theorem run_of_defect (hids : scores.distances.ids = profiles.ids) {fault : Fault α}
    (hdefect : scores.distances.validate = .error fault) (skipped : Nat) :
    run settings profiles skipped (some scores) = .error fault := by
  have hkept : chooseScores settings profiles (some scores) = .ok (scores, true) := by
    rw [chooseScores, if_pos hids]
  have hcluster : cluster settings scores.distances = .error fault := by
    rw [cluster, Dendrogram.ofMatrix, hdefect]
    rfl
  rw [run, hkept]
  show (cluster settings scores.distances).bind _ = _
  rw [hcluster]
  rfl

end Analysis

/-! ### Finite scores -/

namespace ScoreMatrix

/-- The values of a matrix that is made from a pair table are zero and those of the table. -/
theorem of_mem_values_ofPairs {α : Type} [Scalar α] {ids : List BlockId} {table : PairTable α}
    {value : α} (h : value ∈ (ofPairs ids table).values) :
    value = zero ∨ ∃ i j, i < j ∧ j < ids.length ∧ value = table.get i j := by
  simp only [ofPairs, List.mem_toArray, List.mem_flatMap, List.mem_map, List.mem_range] at h
  obtain ⟨i, hi, j, hj, rfl⟩ := h
  rcases Nat.lt_trichotomy i j with hij | rfl | hij
  · exact .inr ⟨i, j, hij, hj, if_neg hij.ne⟩
  · exact .inl (if_pos rfl)
  · exact .inr ⟨j, i, hij, hi, by rw [if_neg hij.ne', PairTable.get_comm]⟩

theorem isFinite_ofPairs {ids : List BlockId} {table : PairTable Float}
    (h : ∀ i j, i < j → j < ids.length → isFinite (table.get i j) = true) :
    (ofPairs ids table).IsFinite := by
  intro value hvalue
  rcases of_mem_values_ofPairs hvalue with rfl | ⟨i, j, hij, hj, rfl⟩
  · decide +kernel
  · exact h i j hij hj

end ScoreMatrix

/-- **The scores of a fresh run** that goes through are finite. -/
theorem Analysis.isFinite_of_run {settings : Settings Float} {profiles : Profiles Float}
    {skipped : Nat} {a : Analysis Float} (h : run settings profiles skipped none = .ok a) :
    score settings profiles = .ok a.scores ∧ a.scores.IsFinite := by
  obtain ⟨fromCache, hchoice, hvalid⟩ := validate_of_run h
  obtain ⟨scores, hscore, hfresh⟩ := exists_of_map_eq_ok hchoice
  cases hfresh
  obtain ⟨⟨table, htable⟩, hsimilarities⟩ := exists_ofPairs_of_score hscore
  refine ⟨hscore, ?_, fun m hm => ?_⟩
  · rw [htable] at hvalid ⊢
    refine ScoreMatrix.isFinite_ofPairs fun i j hij hj => ?_
    have hcell := (ScoreMatrix.cell_of_valid hvalid hij hj).1
    rwa [ScoreMatrix.cell_ofPairs (Nat.lt_trans hij hj) hj, if_neg hij.ne] at hcell
  · obtain ⟨table, rfl, hfinite⟩ := hsimilarities m hm
    exact ScoreMatrix.isFinite_ofPairs hfinite

end BlockAffinity
