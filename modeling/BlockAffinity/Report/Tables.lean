import BlockAffinity.Analysis
import BlockAffinity.Csv.Writer

/-!
# BlockAffinity.Report.Tables

**The tables of a run.** Each table has a header and one row for each pair, block, merge, token,
cluster or threshold. Members of a cluster share one field, with semicolons between them; a
silhouette that does not exist leaves its field empty.
-/

namespace BlockAffinity.Tables

open Decimal (digitText)
open Ingest (blockColumn roleColumn tokenColumn probabilityColumn)

/-- A header and rows as text. -/
def render (header : List String) (rows : List (List String)) : String :=
  Csv.writeRows (header :: rows)

variable {α : Type} [Scalar α] [ScalarText α]

/-- The rows of a table of pairs. -/
def pairRows (m : ScoreMatrix α) : List (List String) :=
  m.pairs.map fun (left, right, score) => [left.text, right.text, ScalarText.write score]

/-- The distance of each pair of blocks. -/
def distances (m : ScoreMatrix α) : String :=
  render ["Block_ID_1", "Block_ID_2", "Distance"] (pairRows m)

/-- The similarity of each pair of blocks. -/
def similarities (m : ScoreMatrix α) : String :=
  render ["Block_ID_1", "Block_ID_2", "Similarity"] (pairRows m)

/-- The label of each block. -/
def clusters (assignment : Assignment) : String :=
  render [blockColumn, "Cluster"]
    (assignment.entries.map fun (id, label) => [id.text, digitText label])

/-- The silhouette coefficient of each block. -/
def silhouette (s : Silhouette α) : String :=
  render [blockColumn, "Silhouette_Coefficient"]
    (s.scores.entries.map fun (id, score) => [id.text, ScalarText.write score])

/-- The merges, numbered from zero. -/
def linkage (tree : Dendrogram α) : String :=
  render ["Step", "Left", "Right", "Distance", "Size"]
    (tree.merges.zipIdx.map fun (m, step) =>
      [digitText step, digitText m.left, digitText m.right, ScalarText.write m.distance,
        digitText m.size])

/-- Probability and entropy of each token. -/
def entropy (entries : List (Entropy.Entry α)) : String :=
  render [blockColumn, roleColumn, tokenColumn, probabilityColumn, "Entropy"]
    (entries.map fun e =>
      [e.block.text, e.role.label, e.token, ScalarText.write e.probability,
        ScalarText.write e.entropy])

/-- What stands between the members of a cluster. -/
def memberSeparator : String := ";"

/-- The descriptions of the clusters. -/
def summaries (clusters : List ClusterSummary) : String :=
  render
    ["Cluster", "Size", "Block_IDs", "Distinct_Instructions", "Distinct_Left_Operands",
      "Distinct_Right_Operands"]
    (clusters.map fun s =>
      [digitText s.label, digitText s.members.length,
        memberSeparator.intercalate (s.members.map BlockId.text),
        digitText s.distinctTokens.instruction, digitText s.distinctTokens.leftOperand,
        digitText s.distinctTokens.rightOperand])

/-- Cluster count and mean silhouette at each threshold of the sweep. -/
def sweep (points : List (SweepPoint α)) : String :=
  render ["Threshold", "Clusters", "Mean_Silhouette"]
    (points.map fun p =>
      [ScalarText.write p.threshold, digitText p.clusters,
        (p.meanSilhouette.map ScalarText.write).getD ""])

end BlockAffinity.Tables
