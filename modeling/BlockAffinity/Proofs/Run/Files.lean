import BlockAffinity.Proofs.Run.Task
import BlockAffinity.Run.Files

/-!
# BlockAffinity.Proofs.Run.Files

**What a run finds out depends on the bytes of its input** and on the scores that are kept for them,
not on where either is stored (`analyzeBytes`). A run reads the two and analyses (`findAnalysis`,
`run_findAnalysis`), and then keeps new scores and writes its files (`keepAnalysis`,
`run_analyzeFile`); without a cache it leaves the storage alone (`run_analyzeFile_uncached`).
-/

namespace BlockAffinity.Run

variable {α : Type} [Scalar α] [ScalarText α]

/-- The analysis of the bytes of an input file, with the scores that are kept for them. -/
def analyzeBytes (settings : Settings α) (path : String) (bytes : ByteArray)
    (kept : Option (Scores α)) : Except (Failure α) (Analysis α) := do
  settings.validate.mapError Fault.failure
  let loaded ← profilesOfBytes settings path bytes
  analyzeProfiles settings path loaded kept

/-! ### Two parts of a run -/

section parts

variable {m : Type → Type} [Monad m] [Storage m]

/-- A run up to its analysis, with the bytes of its input. -/
def findAnalysis (input : String) (settings : Settings α) (cache : Option ScoreCache) :
    Task α m (ByteArray × Analysis α) := do
  Task.ofResult (settings.validate.mapError Fault.failure)
  let bytes ← Task.step (.readInput input) (Storage.read input)
  let loaded ← Task.ofResult (profilesOfBytes settings input bytes)
  let kept ← (keptScores cache (ScoreCache.keyFor bytes settings) : m (Option (Scores α)))
  let analysis ← Task.ofResult (analyzeProfiles settings input loaded kept)
  return (bytes, analysis)

/-- A run from its analysis on. -/
def keepAnalysis (cache : Option ScoreCache) (output : Option String) (key : String)
    (analysis : Analysis α) : Task α m (Analysis α × List String) := do
  (keepScores cache key analysis : m Unit)
  match output with
  | none => return (analysis, [])
  | some directory => return (analysis, ← Outputs.save analysis directory)

/-- **A run finds its analysis first**, and then keeps and writes. -/
theorem analyzeFile_eq [LawfulMonad m] (input : String) (settings : Settings α)
    (cache : Option ScoreCache) (output : Option String) :
    (analyzeFile input settings cache output : Task α m (Analysis α × List String)) =
      findAnalysis input settings cache >>= fun found =>
        keepAnalysis cache output (ScoreCache.keyFor found.1 settings) found.2 := by
  cases output with
  | none => simp only [analyzeFile, findAnalysis, keepAnalysis, bind_assoc, pure_bind]
  | some directory => simp only [analyzeFile, findAnalysis, keepAnalysis, bind_assoc, pure_bind]

end parts

variable {σ : Type} [Storage (StateM σ)] {input : String} {settings : Settings α} {s : σ}
  {bytes : ByteArray} {cache : Option ScoreCache} {kept : Option (Scores α)}

/-- **Up to its analysis a run** does with the bytes of its input what `analyzeBytes` does. -/
theorem run_findAnalysis
    (hread : (Storage.read input : StateM σ _).run s = (.ok bytes, s))
    (hkept : (keptScores cache (ScoreCache.keyFor bytes settings) : StateM σ _).run s = (kept, s)) :
    (findAnalysis input settings cache : Task α (StateM σ) _).run.run s =
      ((analyzeBytes settings input bytes kept).map fun analysis => (bytes, analysis), s) := by
  rw [findAnalysis, analyzeBytes]
  cases settings.validate.mapError (Fault.failure (α := α)) with
  | error failure => exact Task.run_bind_of_error (Task.run_ofResult _)
  | ok valid =>
      rw [Task.run_bind_of_ok (Task.run_ofResult _), Task.run_bind_of_ok (Task.run_step_of_ok hread)]
      cases profilesOfBytes settings input bytes with
      | error failure => exact Task.run_bind_of_error (Task.run_ofResult _)
      | ok loaded =>
          have hlook := Task.run_lift (α := α) (s := s)
            (keptScores cache (ScoreCache.keyFor bytes settings) : StateM σ (Option (Scores α)))
          rw [hkept] at hlook
          rw [Task.run_bind_of_ok (Task.run_ofResult _), Task.run_bind_of_ok hlook]
          dsimp only [bind, Except.bind]
          cases analyzeProfiles settings input loaded kept with
          | error failure => exact Task.run_bind_of_error (Task.run_ofResult _)
          | ok analysis => exact Task.run_bind_of_ok (Task.run_ofResult _)

/-- **A run on an input file** analyses its bytes with what the cache holds for them, and keeps the
scores of an analysis that succeeds. -/
theorem run_analyzeFile
    (hread : (Storage.read input : StateM σ _).run s = (.ok bytes, s))
    (hkept : (keptScores cache (ScoreCache.keyFor bytes settings) : StateM σ _).run s = (kept, s)) :
    (analyzeFile input settings cache none : Task α (StateM σ) _).run.run s =
      match analyzeBytes settings input bytes kept with
      | .error failure => (.error failure, s)
      | .ok analysis =>
          (.ok (analysis, []),
            ((keepScores cache (ScoreCache.keyFor bytes settings) analysis : StateM σ Unit).run s).2)
    := by
  have hfind := run_findAnalysis hread hkept
  rw [analyzeFile_eq]
  cases hbytes : analyzeBytes settings input bytes kept with
  | error failure =>
      rw [hbytes] at hfind
      exact Task.run_bind_of_error hfind
  | ok analysis =>
      rw [hbytes] at hfind
      rw [Task.run_bind_of_ok hfind, keepAnalysis, Task.run_bind_of_ok (Task.run_lift _)]
      rfl

/-- **A run without a cache** leaves the storage alone. -/
theorem run_analyzeFile_uncached
    (hread : (Storage.read input : StateM σ _).run s = (.ok bytes, s)) :
    (analyzeFile input settings none none : Task α (StateM σ) _).run.run s =
      ((analyzeBytes settings input bytes none).map fun analysis => (analysis, []), s) := by
  rw [run_analyzeFile hread rfl]
  cases analyzeBytes settings input bytes none with
  | error failure => rfl
  | ok analysis => rfl

end BlockAffinity.Run
