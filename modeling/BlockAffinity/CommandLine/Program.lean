import BlockAffinity.CommandLine.Arguments
import BlockAffinity.Run.Files

/-!
# BlockAffinity.CommandLine.Program

**The program as a whole**: from arguments to what is printed and how the program exits. It works
over any storage, so a run on a disk in memory and a run on real files are the same program.

The progress line is printed once the settings are known, before they are checked; what was printed
before a failure stays.
-/

namespace BlockAffinity.CommandLine

open Decimal (digitText)

/-- What a program run leaves behind. -/
structure Outcome where
  exitCode : UInt32
  output : String
  errors : String
  deriving Repr, DecidableEq

/-- The name that the program shows. -/
def banner : String := s!"Block Clustering Engine v{version}"

/-- How the program is used. -/
def usage (program : String) : List String :=
  [banner,
    "",
    "Usage:",
    s!"  {program} <INPUT.csv> [OPTIONS]",
    s!"  {program} --clear-cache",
    s!"  {program} --version",
    "",
    "Options:",
    "  --output, -o DIR        Write CSV tables and report.json to DIR",
    "  --config, -c FILE       Load settings from a JSON file (flags override it)",
    "  --kind, -k KIND         Input kind: occurrences, probabilities or disassembly",
    "  --metric, -m METRIC     Pair metric: jsd or overlap",
    "  --linkage, -l LINKAGE   Linkage: average or ward",
    "  --threshold, -t T       Cut the dendrogram at distance T",
    "  --sweep T1,T2,...       Also report clusters and silhouette at these thresholds",
    "  --entropy-filter        Keep only high-entropy tokens before scoring",
    "  --strict                Abort on the first malformed row instead of skipping it",
    "  --sequential            Score pairs on a single thread",
    "  --no-cache              Don't use cached distance matrices",
    "  --refresh-cache         Recompute the cached distance matrix for this input",
    "  --clear-cache           Remove every cached distance matrix",
    "  --verbose               Log debug output",
    "  --version, -v           Show version information"]

/-- What the arguments ask the program to do. -/
inductive Command
  | version
  | clearCache
  | usage
  | analyze (input : String) (arguments : List String)
  deriving Repr, DecidableEq

/-- The command that the arguments stand for. -/
def Command.ofArguments : List String → Command
  | [] => .usage
  | first :: rest =>
      if first = "--version" ∨ first = "-v" then .version
      else if first = "--clear-cache" then .clearCache
      else if first.toList.head? = some '-' then .usage
      else .analyze first rest

/-- Lines as text. -/
def linesText (lines : List String) : String := String.join (lines.map (· ++ "\n"))

/-- A cause below the top of a failure, with its further lines indented as far as its text. -/
def causeText (lead indent text : String) : String :=
  lead ++ String.join (text.toList.map fun c => if c = '\n' then "\n" ++ indent else c.toString)

/-- A number at the right end of five places. -/
def placed (n : Nat) : String :=
  let digits := digitText n
  String.ofList (List.replicate (5 - digits.length) ' ') ++ digits

/-- The texts of a failure as they are printed: the outermost one, and the causes below it, which
are numbered if there are several. -/
def failureText : List String → String
  | [] => ""
  | [top] => s!"Error: {top}\n"
  | [top, cause] => s!"Error: {top}\n\nCaused by:\n" ++ causeText "    " "    " cause ++ "\n"
  | top :: causes =>
      s!"Error: {top}\n\nCaused by:\n"
        ++ linesText (causes.zipIdx.map fun (cause, i) =>
          causeText (placed i ++ ": ") "       " cause)

variable {α : Type} [Scalar α] [ScalarText α]

/-- The outcome of a run that has printed some lines and may have failed. -/
def Outcome.of (lines : List String) (failure : Option (Failure α)) : Outcome :=
  match failure with
  | none => ⟨0, linesText lines, ""⟩
  | some failure => ⟨1, linesText lines, failureText failure.messages⟩

/-- What is printed about a finished analysis. -/
def summaryLines (analysis : Analysis α) (output : Option String) : List String :=
  let report := analysis.report
  [s!"Blocks: {digitText report.blocks.length}"]
  ++ (if report.skipped = 0 then []
      else [s!"Skipped malformed records: {digitText report.skipped}"])
  ++ (match report.flat with
      | none => []
      | some flat =>
          [s!"Clusters: {digitText report.clusterCount}",
            match flat.silhouette with
            | .ok silhouette => "Mean silhouette: " ++ ScalarText.writeFixed silhouette.mean
            | .error gap => s!"Mean silhouette: undefined ({gap.message})"])
  ++ [match output with
      | some directory => s!"Saved to: {directory}"
      | none => report.document.indented]

variable {m : Type → Type} [Monad m] [Storage m]

/-- The settings of a run. Kept scores are dropped first if the options ask for it. -/
def prepare (cache : ScoreCache) (input : String) (o : Options) : Task α m (Settings α) := do
  let fromFile : Settings α ←
    match o.config with
    | none => pure .standard
    | some path => do
        let loaded ← (Run.loadSettings path : m (Except (Fault α) (Settings α)))
        Task.ofResult (during (.loadSettings path) (loaded.mapError Cause.fault))
  let settings ← Task.ofResult (applyOptions fromFile o)
  if o.has .refreshCache && settings.useCache then Run.forgetScores input settings cache
  return settings

/-- Analyses an input file and tells about it. -/
def analyze (cache : ScoreCache) (input : String) (arguments : List String) : m Outcome := do
  let reading := readOptions arguments
  let noted := reading.unknown.map fun argument => s!"Unknown argument: {argument}"
  match reading.options with
  | .error flag => return .of (α := α) noted (some ⟨[], .missingValue flag⟩)
  | .ok o =>
      match ← (prepare cache input o : Task α m (Settings α)).run with
      | .error failure => return .of noted (some failure)
      | .ok settings =>
          let announced := noted ++ [s!"Clustering blocks from: {input}"]
          let used := if settings.useCache then some cache else none
          match ← (Run.analyzeFile input settings used o.output : Task α m _).run with
          | .error failure => return .of announced (some failure)
          | .ok (analysis, _) =>
              return .of (α := α) (announced ++ summaryLines analysis o.output) none

/-- Drops all kept scores and tells about it. -/
def clearCache (cache : ScoreCache) : m Outcome := do
  match ← (cache.clearAll : Task α m Unit).run with
  | .error failure => return .of [] (some failure)
  | .ok () => return .of (α := α) ["Cleared all cached distance matrices"] none

/-- Runs the program. The cache lies below the given directory. -/
def run (program cacheBase : String) (arguments : List String) : m Outcome :=
  let cache : ScoreCache := ⟨Path.join cacheBase ScoreCache.directoryName⟩
  match Command.ofArguments arguments with
  | .version => return .of (α := α) [banner] none
  | .usage => return .of (α := α) (usage program) none
  | .clearCache => clearCache (α := α) cache
  | .analyze input rest => analyze (α := α) cache input rest

end BlockAffinity.CommandLine
