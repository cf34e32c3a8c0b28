import BlockAffinity.Csv.Reader
import BlockAffinity.Run.Outputs
import BlockAffinity.Run.ScoreCache

/-!
# BlockAffinity.Run.Files

**Analysing an input file.** The file is read, decoded and parsed, its rows become profiles, and
the profiles are analysed with the scores that the cache may hold for them. New scores are kept
for the next run. What the cache cannot give counts as absent, and what it cannot keep is not kept;
what it gives is used as it is.
-/

namespace BlockAffinity.Run

variable {α : Type} [Scalar α] [ScalarText α]

/-- The profiles in the bytes of an input file, and how many rows were skipped. -/
def profilesOfBytes (settings : Settings α) (path : String) (bytes : ByteArray) :
    Except (Failure α) (Profiles α × Nat) := do
  let text ← during (.decodeInput path) ((Text.decodeUtf8 bytes).mapError Cause.encoding)
  let table ← during (.parseInput path)
    ((Csv.readTable text).mapError fun e => .fault (.malformedRecord e.line .unterminatedField))
  during (.loadProfiles path) ((Analysis.loadProfiles settings table).mapError Cause.fault)

/-- The analysis of the bytes of an input file, with the scores that are kept for them. -/
def analyzeProfiles (settings : Settings α) (path : String) (loaded : Profiles α × Nat)
    (kept : Option (Scores α)) : Except (Failure α) (Analysis α) := do
  let analysis ← during (.analyze path)
    ((Analysis.run settings loaded.1 loaded.2 kept).mapError Cause.fault)
  return { analysis with report := { analysis.report with input := some path } }

variable {m : Type → Type} [Monad m] [Storage m]

/-- The scores that a cache holds under a key; a cache that cannot be read holds none. -/
def keptScores (cache : Option ScoreCache) (key : String) : m (Option (Scores α)) :=
  match cache with
  | none => return none
  | some cache => do return (← (cache.get key : Task α m _).attempt).join

/-- Keeps the scores of an analysis that did not come from the cache. -/
def keepScores (cache : Option ScoreCache) (key : String) (analysis : Analysis α) : m Unit :=
  match cache with
  | none => return ()
  | some cache => do
      unless analysis.report.fromCache do
        let _ ← (cache.save key analysis.scores : Task α m Unit).attempt

/-- Analyses an input file and writes the files of the run into a directory, if one is given. Gives
the analysis and the paths of the files. -/
def analyzeFile (input : String) (settings : Settings α) (cache : Option ScoreCache)
    (output : Option String) : Task α m (Analysis α × List String) := do
  Task.ofResult (settings.validate.mapError Fault.failure)
  let bytes ← Task.step (.readInput input) (Storage.read input)
  let loaded ← Task.ofResult (profilesOfBytes settings input bytes)
  let key := ScoreCache.keyFor bytes settings
  let kept ← (keptScores cache key : m (Option (Scores α)))
  let analysis ← Task.ofResult (analyzeProfiles settings input loaded kept)
  (keepScores cache key analysis : m Unit)
  match output with
  | none => return (analysis, [])
  | some directory => return (analysis, ← Outputs.save analysis directory)

/-- Drops the scores that are kept for an input file under some settings. -/
def forgetScores (input : String) (settings : Settings α) (cache : ScoreCache) :
    Task α m Unit := do
  let bytes ← Task.step (.readInput input) (Storage.read input)
  cache.clear (ScoreCache.keyFor bytes settings)

/-- The settings in a document file. Settings that are not valid are refused. -/
def loadSettings (path : String) : m (Except (Fault α) (Settings α)) := do
  let context : Context := ⟨"config", "load", some path⟩
  match ← Storage.readText path with
  | .error e => return .error (Trouble.within context (.input e.message))
  | .ok text =>
      match (Json.readDocument? text).bind Settings.ofDocument? with
      | none => return .error (.settings (.unreadable context))
      | some settings => return settings.validate.map fun _ => settings

end BlockAffinity.Run
