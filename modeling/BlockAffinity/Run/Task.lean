import BlockAffinity.Run.Failure

/-!
# BlockAffinity.Run.Task

**Steps of a run.** A task works with files and may end in a failure. Its steps are file
operations, each told as part of some activity, and results that need no files.
-/

namespace BlockAffinity

/-- A computation with files that may fail. -/
abbrev Task (α : Type) (m : Type → Type) (β : Type) := ExceptT (Failure α) m β

namespace Task

variable {α β : Type} {m : Type → Type} [Monad m]

/-- A file operation as a step of some activity. -/
def step (activity : Activity) (operation : m (Except FileError β)) : Task α m β :=
  ExceptT.mk do return during activity ((← operation).mapError Cause.file)

/-- A file operation whose failure is told by its cause alone. -/
def perform (cause : FileError → Cause α) (operation : m (Except FileError β)) : Task α m β :=
  ExceptT.mk do return (← operation).mapError fun e => ⟨[], cause e⟩

/-- A result that needs no files. -/
def ofResult (result : Except (Failure α) β) : Task α m β := ExceptT.mk (pure result)

/-- Whether there is a file or a directory. -/
def contains [Storage m] (path : String) : Task α m Bool := ExceptT.lift (Storage.contains path)

/-- The result of a task that may go wrong without harm. -/
def attempt (task : Task α m β) : m (Option β) := do
  match ← task.run with
  | .ok value => return some value
  | .error _ => return none

end Task

end BlockAffinity
