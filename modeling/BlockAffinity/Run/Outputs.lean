import BlockAffinity.Report.Documents
import BlockAffinity.Report.Tables
import BlockAffinity.Run.Task
import BlockAffinity.Storage.Path

/-!
# BlockAffinity.Run.Outputs

**The files of a run.** Distances, merges and entropies are always written; similarities, flat
clusters, silhouettes and the sweep only if the run has them. The report comes last.
-/

namespace BlockAffinity.Outputs

variable {α : Type} [Scalar α] [ScalarText α]

/-- The tables that apply to a run, with their file names, in the order in which they are
written. -/
def tables (analysis : Analysis α) : List (String × String) :=
  let report := analysis.report
  [("distances.csv", Tables.distances analysis.scores.distances),
    ("linkage.csv", Tables.linkage report.tree),
    ("entropy.csv", Tables.entropy analysis.entropy)]
  ++ (analysis.scores.similarities.map fun m =>
      ("similarities.csv", Tables.similarities m)).toList
  ++ (report.flat.map fun flat =>
      [("clusters.csv", Tables.clusters flat.assignment),
        ("cluster_summary.csv", Tables.summaries flat.summaries)]).getD []
  ++ (report.silhouette?.map fun s => ("silhouette.csv", Tables.silhouette s)).toList
  ++ (if report.sweep.isEmpty then [] else [("threshold_sweep.csv", Tables.sweep report.sweep)])

/-- All files of a run. -/
def files (analysis : Analysis α) : List (String × String) :=
  tables analysis ++ [("report.json", analysis.report.document.indented)]

variable {m : Type → Type} [Monad m] [Storage m]

/-- A path that begins with a slash, taken from the working directory if need be. -/
def absolutePath (path : String) : Task α m String :=
  if Path.isAbsolute path then pure path
  else do
    let base ← Task.step (.resolvePath path) Storage.workingDirectory
    return Path.join base path

/-- Writes a file, creating the directory it lies in. Gives the absolute path. -/
def writeFile (path contents : String) : Task α m String := do
  let target ← absolutePath path
  match Path.parent? target with
  | none => pure ()
  | some parent =>
      unless ← Task.contains parent do
        Task.step (.createDirectory parent) (Storage.makeDirectories parent)
  Task.perform (.createFile target) (Storage.write target contents.toUTF8)
  return target

/-- Writes all files of a run into a directory. Gives their paths in order. -/
def save (analysis : Analysis α) (directory : String) : Task α m (List String) :=
  (files analysis).mapM fun (name, contents) => writeFile (Path.join directory name) contents

end BlockAffinity.Outputs
