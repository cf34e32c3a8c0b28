import BlockAffinity.Analysis
import BlockAffinity.Json.Decoder

/-!
# BlockAffinity.Report.Documents

**Settings, scores and reports as documents.** Settings are read and written, and so are scores,
which the cache keeps; reports are only written. Settings may leave any field out, scores only the
similarities, unless they are written as an array.
-/

namespace BlockAffinity

open Json (Document)

variable {α : Type} [Scalar α] [ScalarText α]

/-- A number as a document. -/
def numberDocument (value : α) : Document := .number (ScalarText.writeJson value)

/-- An id as a document. -/
def BlockId.document (id : BlockId) : Document := .ofString id.text

namespace Settings

/-- The names of the fields in order. -/
def fieldNames : List String :=
  ["input_kind", "metric", "linkage", "threshold", "entropy_filter", "malformed", "parallel",
    "use_cache", "sweep"]

/-- Names of the input kinds. -/
def inputKinds : List (String × InputKind) :=
  [InputKind.occurrences, .probabilities, .disassembly].map fun kind => (kind.label, kind)

/-- Names of the metrics. -/
def metrics : List (String × Metric) :=
  [Metric.jsd, .overlap].map fun metric => (metric.label, metric)

/-- Names of the linkages. -/
def linkages : List (String × Linkage) :=
  [Linkage.average, .ward].map fun linkage => (linkage.label, linkage)

/-- Names of the policies. -/
def policies : List (String × Ingest.Policy) :=
  [Ingest.Policy.skip, .abort].map fun policy => (policy.label, policy)

/-- The settings as a document. -/
def document (s : Settings α) : Document :=
  .ofMembers (fieldNames.zip
    [.ofString s.inputKind.label, .ofString s.metric.label, .ofString s.linkage.label,
      .ofOption (s.threshold.map numberDocument), .bool s.entropyFilter,
      .ofString s.malformed.label, .bool s.parallel, .bool s.useCache,
      .array (s.sweep.map numberDocument)])

/-- The settings that a document describes; what it leaves out is as in the standard settings. -/
def ofDocument? (document : Document) : Option (Settings α) := do
  let standard : Settings α := .standard
  match ← document.fields? fieldNames with
  | [inputKind, metric, linkage, threshold, entropyFilter, malformed, parallel, useCache, sweep] =>
      return {
        inputKind := ← inputKind |> Document.orElse? (Document.choice? inputKinds) standard.inputKind
        metric := ← metric |> Document.orElse? (Document.choice? metrics) standard.metric
        linkage := ← linkage |> Document.orElse? (Document.choice? linkages) standard.linkage
        threshold := ←
          threshold |> Document.orElse? (Document.nullable? Document.scalar?) standard.threshold
        entropyFilter := ← entropyFilter |> Document.orElse? Document.bool? standard.entropyFilter
        malformed := ← malformed |> Document.orElse? (Document.choice? policies) standard.malformed
        parallel := ← parallel |> Document.orElse? Document.bool? standard.parallel
        useCache := ← useCache |> Document.orElse? Document.bool? standard.useCache
        sweep := ← sweep |> Document.orElse? (Document.list? Document.scalar?) standard.sweep }
  | _ => none

end Settings

namespace ScoreMatrix

/-- A matrix as a document. -/
def document (m : ScoreMatrix α) : Document :=
  .ofMembers [
    ("block_ids", .array (m.ids.map BlockId.document)),
    ("values", .array (m.values.toList.map numberDocument))]

/-- The matrix that a document describes. The number of values is not looked at. -/
def ofDocument? (document : Document) : Option (ScoreMatrix α) := do
  match ← document.fields? ["block_ids", "values"] with
  | [some ids, some values] =>
      let ids ← ids.list? Document.text?
      let values ← values.list? Document.scalar?
      return ⟨ids.map BlockId.mk, values.toArray⟩
  | _ => none

end ScoreMatrix

namespace Scores

/-- Scores as a document. -/
def document (s : Scores α) : Document :=
  .ofMembers [
    ("distances", s.distances.document),
    ("similarities", .ofOption (s.similarities.map ScoreMatrix.document)),
    ("non_finite", .ofNat s.nonFinite)]

/-- The scores that a document describes. -/
def ofDocument? (document : Document) : Option (Scores α) := do
  match ← document.fields? ["distances", "similarities", "non_finite"] with
  | [some distances, similarities, some nonFinite] =>
      if document.isArray && similarities.isNone then none
      else
        let distances ← ScoreMatrix.ofDocument? distances
        let similarities ←
          similarities |> Document.orElse? (Document.nullable? ScoreMatrix.ofDocument?) none
        let nonFinite ← nonFinite.nat?
        return ⟨distances, similarities, nonFinite⟩
  | _ => none

end Scores

/-- A merge as a document. -/
def Merge.document (m : Merge α) : Document :=
  .ofMembers [
    ("left", .ofNat m.left), ("right", .ofNat m.right), ("distance", numberDocument m.distance),
    ("size", .ofNat m.size)]

/-- A dendrogram as a document. -/
def Dendrogram.document (tree : Dendrogram α) : Document :=
  .ofMembers [
    ("leaves", .ofNat tree.leaves), ("steps", .array (tree.merges.map Merge.document))]

/-- Values by block as a document. -/
def Roster.document {β : Type} (value : β → Document) (r : Roster β) : Document :=
  .ofMembers (r.entries.map fun (id, x) => (id.text, value x))

/-- A silhouette as a document. -/
def Silhouette.document (s : Silhouette α) : Document :=
  .ofMembers [
    ("scores", s.scores.document numberDocument), ("mean", numberDocument s.mean)]

/-- The description of a cluster as a document. -/
def ClusterSummary.document (s : ClusterSummary) : Document :=
  .ofMembers [
    ("label", .ofNat s.label),
    ("members", .array (s.members.map BlockId.document)),
    ("distinct_instructions", .ofNat s.distinctTokens.instruction),
    ("distinct_left_operands", .ofNat s.distinctTokens.leftOperand),
    ("distinct_right_operands", .ofNat s.distinctTokens.rightOperand)]

/-- A point of the sweep as a document. -/
def SweepPoint.document (p : SweepPoint α) : Document :=
  .ofMembers [
    ("threshold", numberDocument p.threshold), ("clusters", .ofNat p.clusters),
    ("mean_silhouette", .ofOption (p.meanSilhouette.map numberDocument))]

namespace Report

/-- The silhouette of the flat clusters, if both exist. -/
def silhouette? (report : Report α) : Option (Silhouette α) :=
  report.flat.bind fun flat => flat.silhouette.toOption

/-- Why flat clusters have no silhouette. -/
def silhouetteNote? (report : Report α) : Option String :=
  report.flat.bind fun flat =>
    match flat.silhouette with
    | .ok _ => none
    | .error gap => some gap.message

/-- The descriptions of the flat clusters. -/
def summaries (report : Report α) : List ClusterSummary :=
  (report.flat.map FlatClusters.summaries).getD []

/-- A report as a document. -/
def document (report : Report α) : Document :=
  .ofMembers [
    ("version", .ofString report.version),
    ("input", .ofOption (report.input.map Document.ofString)),
    ("config", report.settings.document),
    ("blocks", .array (report.blocks.map BlockId.document)),
    ("skipped_records", .ofNat report.skipped),
    ("non_finite_clamps", .ofNat report.nonFinite),
    ("from_cache", .bool report.fromCache),
    ("linkage", report.tree.document),
    ("assignment",
      .ofOption (report.flat.map fun flat => flat.assignment.document Document.ofNat)),
    ("silhouette", .ofOption (report.silhouette?.map Silhouette.document)),
    ("silhouette_note", .ofOption (report.silhouetteNote?.map Document.ofString)),
    ("clusters", .array (report.summaries.map ClusterSummary.document)),
    ("sweep", .array (report.sweep.map SweepPoint.document))]

end Report

end BlockAffinity
