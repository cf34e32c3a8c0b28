import BlockAffinity.Entropy
import BlockAffinity.Ingest.Weights
import BlockAffinity.Linkage.Agglomeration
import BlockAffinity.Linkage.Cut
import BlockAffinity.ScoreMatrix.Scoring
import BlockAffinity.Settings
import BlockAffinity.Silhouette
import BlockAffinity.Summary

/-!
# BlockAffinity.Analysis

**One run from profiles to report.** The blocks are scored pair by pair, the scores are clustered,
the dendrogram is cut at the threshold, and the flat clusters are evaluated and described. Each
threshold of the sweep cuts the same dendrogram on its own.

Scores that an earlier run has kept are used if they are about exactly the profiled blocks in the
same order.
-/

namespace BlockAffinity

/-- The version that reports are marked with. -/
def version : String := "0.1.0"

/-- The scores of all pairs of blocks. -/
structure Scores (α : Type) where
  distances : ScoreMatrix α
  /-- What the distances were made from, if the metric is a similarity. -/
  similarities : Option (ScoreMatrix α)
  /-- Number of degenerate divergences. -/
  nonFinite : Nat
  deriving Repr, DecidableEq

/-- Flat clusters with their silhouette, or with the reason why there is none. -/
structure FlatClusters (α : Type) where
  assignment : Assignment
  silhouette : Except SilhouetteGap (Silhouette α)
  summaries : List ClusterSummary

/-- What cutting at one threshold gives. -/
structure SweepPoint (α : Type) where
  threshold : α
  clusters : Nat
  meanSilhouette : Option α
  deriving Repr

/-- What a run found out, the scores apart. -/
structure Report (α : Type) where
  version : String
  /-- The input file, if there was one. -/
  input : Option String
  settings : Settings α
  blocks : List BlockId
  skipped : Nat
  nonFinite : Nat
  fromCache : Bool
  tree : Dendrogram α
  flat : Option (FlatClusters α)
  sweep : List (SweepPoint α)

/-- Number of flat clusters, zero without a threshold. -/
def Report.clusterCount {α : Type} (report : Report α) : Nat :=
  (report.flat.map fun flat => flat.assignment.clusterCount).getD 0

/-- Everything that a run produces. -/
structure Analysis (α : Type) where
  profiles : Profiles α
  scores : Scores α
  entropy : List (Entropy.Entry α)
  report : Report α

namespace Analysis

variable {α : Type} [Scalar α]

/-- Applies the entropy filter if the settings ask for it. -/
def filtered (settings : Settings α) (profiles : Profiles α) : Profiles α :=
  if settings.entropyFilter then Entropy.filterProfiles profiles else profiles

/-- The profiles of the blocks in an input table, and how many rows were skipped. -/
def loadProfiles [ScalarText α] (settings : Settings α) (table : Csv.Table) :
    Except (Fault α) (Profiles α × Nat) := do
  let policy := settings.malformed
  let (profiles, skipped) ← match settings.inputKind with
    | .occurrences => do
        let accepted ← Ingest.acceptRows policy Ingest.RawRow.check (← Ingest.occurrenceRows table)
        pure (Ingest.profilesOf accepted.rows, accepted.skipped)
    | .disassembly => do
        let accepted ← Ingest.acceptRows policy Ingest.RawRow.check (← Ingest.disassemblyRows table)
        pure (Ingest.profilesOf accepted.rows, accepted.skipped)
    | .probabilities => do
        let accepted ← Ingest.weightedRows table policy
        pure (Ingest.profilesOfWeights accepted.rows, accepted.skipped)
  return (filtered settings profiles, skipped)

/-- Scores every pair of blocks. -/
def score (settings : Settings α) (profiles : Profiles α) : Except (Fault α) (Scores α) := do
  match settings.metric with
  | .jsd =>
      return ⟨← ScoreMatrix.divergences profiles, none, ScoreMatrix.degenerateDivergences profiles⟩
  | .overlap =>
      let similarities ← ScoreMatrix.overlaps profiles
      return ⟨similarities.toDistances, some similarities, 0⟩

/-- The silhouette of an assignment; that it does not exist is not a fault. -/
def evaluate (distances : ScoreMatrix α) (assignment : Assignment) :
    Except (Fault α) (Except SilhouetteGap (Silhouette α)) :=
  match Silhouette.ofAssignment distances assignment with
  | .ok silhouette => .ok (.ok silhouette)
  | .error (.undefinedSilhouette gap) => .ok (.error gap)
  | .error fault => .error fault

/-- The mean silhouette of an assignment; that it does not exist is not a fault. -/
def meanSilhouette? (distances : ScoreMatrix α) (assignment : Assignment) :
    Except (Fault α) (Option α) :=
  match Silhouette.ofAssignment distances assignment with
  | .ok silhouette => .ok (some silhouette.mean)
  | .error (.undefinedSilhouette _) => .ok none
  | .error fault => .error fault

/-- Cuts the dendrogram at a threshold and says how well the clusters fit. -/
def sweepPoint (distances : ScoreMatrix α) (tree : Dendrogram α) (threshold : α) :
    Except (Fault α) (SweepPoint α) := do
  let assignment ← tree.cut distances.ids threshold
  let mean ← meanSilhouette? distances assignment
  return ⟨threshold, assignment.clusterCount, mean⟩

/-- One point for each threshold, in order. -/
def sweep (settings : Settings α) (distances : ScoreMatrix α) (tree : Dendrogram α) :
    Except (Fault α) (List (SweepPoint α)) :=
  settings.sweep.mapM (sweepPoint distances tree)

/-- The dendrogram of the distances and, with a threshold, its flat clusters. -/
def cluster (settings : Settings α) (distances : ScoreMatrix α) :
    Except (Fault α) (Dendrogram α × Option Assignment) := do
  let tree ← Dendrogram.ofMatrix settings.linkage distances
  match settings.threshold with
  | none => return (tree, none)
  | some threshold => return (tree, some (← tree.cut distances.ids threshold))

/-- Evaluates and describes flat clusters. -/
def describe (profiles : Profiles α) (distances : ScoreMatrix α) (assignment : Assignment) :
    Except (Fault α) (FlatClusters α) := do
  let silhouette ← evaluate distances assignment
  return ⟨assignment, silhouette, ClusterSummary.ofAssignment assignment profiles⟩

/-- The scores to work with, and whether they are the kept ones. -/
def chooseScores (settings : Settings α) (profiles : Profiles α) (kept : Option (Scores α)) :
    Except (Fault α) (Scores α × Bool) :=
  let fresh := (score settings profiles).map fun scores => (scores, false)
  match kept with
  | some scores => if scores.distances.ids = profiles.ids then .ok (scores, true) else fresh
  | none => fresh

/-- Runs the analysis on profiles. -/
def run (settings : Settings α) (profiles : Profiles α) (skipped : Nat)
    (kept : Option (Scores α)) : Except (Fault α) (Analysis α) := do
  let (scores, fromCache) ← chooseScores settings profiles kept
  let (tree, assignment) ← cluster settings scores.distances
  let flat ← assignment.mapM (describe profiles scores.distances)
  let sweep ← sweep settings scores.distances tree
  return {
    profiles
    scores
    entropy := Entropy.entries profiles
    report := {
      version
      input := none
      settings
      blocks := profiles.ids
      skipped
      nonFinite := scores.nonFinite
      fromCache
      tree
      flat
      sweep } }

/-- Runs the analysis on observations, without files. -/
def ofObservations (settings : Settings α) (observations : List Observation) :
    Except (Fault α) (Analysis α) := do
  settings.validate
  run settings (filtered settings (Ingest.profilesOf observations)) 0 none

end Analysis

end BlockAffinity
