import BlockAffinity.CommandLine.Program

/-!
# BlockAffinity.Main

**The program on real files.** This is the outer layer: it gives the program the files of the
machine and its environment, prints what the program leaves behind, and exits as it says.
-/

namespace BlockAffinity

/-- The number of an error of the system, which some operations give negated. -/
def errorNumber (code : UInt32) : UInt32 := if code < 0x80000000 then code else 0 - code

/-- The file error that an error of the system stands for. -/
def FileError.ofSystem : IO.Error → FileError
  | .noFileOrDirectory .. => .notFound
  | .alreadyExists .. => .exists
  | .inappropriateType _ code _ => if errorNumber code = 21 then .isDirectory else .notDirectory
  | .invalidArgument file code details =>
      if errorNumber code = 36 then .nameTooLong
      else if details = "string contains NUL bytes" then .embeddedNul
      else .other (toString (IO.Error.invalidArgument file code details))
  | e => .other (toString e)

/-- The result of a file operation. -/
def attemptFile {β : Type} (operation : IO β) : IO (Except FileError β) := do
  try return .ok (← operation)
  catch e => return .error (.ofSystem e)

/-- Whether a file or a directory can be opened; a path that ends in a dot leads to a directory. -/
def canOpen (path : String) : IO Bool := do
  match ← attemptFile (IO.FS.Handle.mk path .read) with
  | .ok _ => return true
  | .error .notFound => return false
  | .error .notDirectory => return false
  | .error .nameTooLong => return false
  | .error .embeddedNul => return false
  | .error _ => return true

/-- What an attempt to create a directory comes to: one that is already there is as good as a new
one. -/
def settleDirectory (path : String) : Except FileError Unit → IO (Except FileError Unit)
  | .ok () => return .ok ()
  | .error e => return if ← canOpen (path ++ "/.") then .ok () else .error e

/-- Creates a directory, after those above it if there are none. -/
partial def makeDirectoryTree (path : String) : IO (Except FileError Unit) := do
  match ← attemptFile (IO.FS.createDir path), Path.parent? path with
  | .error .notFound, some parent =>
      match ← makeDirectoryTree parent with
      | .error e => return .error e
      | .ok () => settleDirectory path (← attemptFile (IO.FS.createDir path))
  | attempt, _ => settleDirectory path attempt

instance : Storage IO where
  read path := attemptFile (IO.FS.readBinFile path)
  write path contents := attemptFile (IO.FS.writeBinFile path contents)
  contains path := canOpen path
  makeDirectories path := makeDirectoryTree path
  removeFile path := attemptFile (IO.FS.removeFile path)
  removeTree path := attemptFile (IO.FS.removeDirAll path)
  workingDirectory := attemptFile do return (← IO.currentDir).toString

/-- The directory for caches: the one that the environment names, else one in the home
directory, else the working directory. -/
def cacheBase (named home : Option String) : String :=
  match named.filter Path.isAbsolute, home with
  | some directory, _ => directory
  | none, some home => Path.join home ".cache"
  | none, none => "."

/-- Runs the program on the files of the machine. -/
def runOnFiles (arguments : List String) : IO UInt32 := do
  let base := cacheBase (← IO.getEnv "XDG_CACHE_HOME") (← IO.getEnv "HOME")
  let outcome : CommandLine.Outcome ← CommandLine.run (α := Float) "blockclust" base arguments
  IO.print outcome.output
  IO.eprint outcome.errors
  return outcome.exitCode

end BlockAffinity

/-- The entry point. -/
def main (arguments : List String) : IO UInt32 := BlockAffinity.runOnFiles arguments
