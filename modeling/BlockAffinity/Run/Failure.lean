import BlockAffinity.Fault
import BlockAffinity.Storage.Basic

/-!
# BlockAffinity.Run.Failure

**Failures of a whole run**: what went wrong, and what was being done at the time, the outermost
activity first. A failure is told as a list of texts, from the outermost activity to the innermost
cause.
-/

namespace BlockAffinity

/-- Something that is being done with files or arguments. -/
inductive Activity
  | readInput (path : String)
  | decodeInput (path : String)
  | parseInput (path : String)
  | loadProfiles (path : String)
  | analyze (path : String)
  | readCache (path : String)
  | createCache (path : String)
  | writeCache (path : String)
  | removeCached (path : String)
  | removeCache (path : String)
  | recreateCache (path : String)
  | resolvePath (path : String)
  | createDirectory (path : String)
  | loadSettings (path : String)
  | readThreshold (text : String)
  | readSweepThreshold (text : String)
  deriving Repr, DecidableEq

/-- What is told of an activity that failed. -/
def Activity.message : Activity → String
  | .readInput path => s!"Failed to read input file: {path}"
  | .decodeInput path => s!"Input file is not valid UTF-8: {path}"
  | .parseInput path => s!"Failed to parse CSV: {path}"
  | .loadProfiles path => s!"Failed to build distributions from {path}"
  | .analyze path => s!"Analysis of {path} failed"
  | .readCache path => s!"Failed to read cache file: {path}"
  | .createCache path => s!"Failed to create cache directory: {path}"
  | .writeCache path => s!"Failed to write cache file: {path}"
  | .removeCached path => s!"Failed to remove cache file: {path}"
  | .removeCache path => s!"Failed to remove cache directory: {path}"
  | .recreateCache path => s!"Failed to recreate cache directory: {path}"
  | .resolvePath path => s!"Failed to resolve path: {path}"
  | .createDirectory path => s!"Failed to create directory: {path}"
  | .loadSettings path => s!"Failed to load config: {path}"
  | .readThreshold text => s!"Invalid threshold: {text}"
  | .readSweepThreshold text => s!"Invalid sweep threshold: {text}"

/-- The innermost cause of a failure. -/
inductive Cause (α : Type)
  | fault (fault : Fault α)
  | file (error : FileError)
  | encoding (fault : Text.Utf8Fault)
  | numeral (fault : Decimal.NumeralFault)
  /-- A file cannot be created. -/
  | createFile (path : String) (error : FileError)
  /-- The value of a flag is not one of its names. -/
  | unknownName (text : String)
  /-- A flag stands last although it takes a value. -/
  | missingValue (flag : String)

/-- A cause with what was being done, the outermost activity first. -/
structure Failure (α : Type) where
  during : List Activity
  cause : Cause α

variable {α : Type} [ScalarText α]

/-- The texts of a cause. A failed file operation inside the library is told once as a fault and
once by itself. -/
def Cause.messages : Cause α → List String
  | .fault (.input text) => [Fault.message (.input text : Fault α), text]
  | .fault f => [f.message]
  | .file e => [e.message]
  | .encoding f => [f.message]
  | .numeral f => [f.message]
  | .createFile path e => [s!"Failed to create file: {path} - Error: {e.message}"]
  | .unknownName text => [text]
  | .missingValue flag => [s!"Missing value for {flag}"]

/-- The texts of a failure, the outermost first. -/
def Failure.messages (failure : Failure α) : List String :=
  failure.during.map Activity.message ++ failure.cause.messages

/-- A failure on one line. -/
def Failure.message (failure : Failure α) : String := ": ".intercalate failure.messages

omit [ScalarText α] in
/-- The result of a step of some activity. -/
def during {β : Type} (activity : Activity) (result : Except (Cause α) β) :
    Except (Failure α) β :=
  match result with
  | .ok value => .ok value
  | .error cause => .error ⟨[activity], cause⟩

omit [ScalarText α] in
/-- A fault as a failure that nothing surrounds. -/
def Fault.failure (fault : Fault α) : Failure α := ⟨[], .fault fault⟩

end BlockAffinity
