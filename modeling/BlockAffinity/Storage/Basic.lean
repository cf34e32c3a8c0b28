import BlockAffinity.Text.Utf8

/-!
# BlockAffinity.Storage.Basic

**Files as a capability.** A program that keeps files is written over any monad with these few
operations; what the operations do is up to the instance. Each operation that can fail gives a
reason.
-/

namespace BlockAffinity

/-- Why a file operation failed. -/
inductive FileError
  | notFound
  | exists
  | notDirectory
  | isDirectory
  /-- A path, or one of its names, is longer than any file's. -/
  | nameTooLong
  /-- A path holds the character with code 0. -/
  | embeddedNul
  /-- A file that is read as text holds no UTF-8. -/
  | notText
  | other (text : String)
  deriving Repr, DecidableEq

/-- The text of a file error. -/
def FileError.message : FileError → String
  | .notFound => "No such file or directory (os error 2)"
  | .exists => "File exists (os error 17)"
  | .notDirectory => "Not a directory (os error 20)"
  | .isDirectory => "Is a directory (os error 21)"
  | .nameTooLong => "File name too long (os error 36)"
  | .embeddedNul => "file name contained an unexpected NUL byte"
  | .notText => "stream did not contain valid UTF-8"
  | .other text => text

/-- Access to files by path. -/
class Storage (m : Type → Type) where
  /-- The contents of a file. -/
  read : (path : String) → m (Except FileError ByteArray)
  /-- Creates a file or replaces its contents. -/
  write : (path : String) → (contents : ByteArray) → m (Except FileError Unit)
  /-- Whether there is a file or a directory. -/
  contains : (path : String) → m Bool
  /-- Creates a directory and those above it, as far as they are missing. -/
  makeDirectories : (path : String) → m (Except FileError Unit)
  removeFile : (path : String) → m (Except FileError Unit)
  /-- Removes a directory with everything in it. -/
  removeTree : (path : String) → m (Except FileError Unit)
  /-- The directory that relative paths are taken from. -/
  workingDirectory : m (Except FileError String)

namespace Storage

variable {m : Type → Type} [Monad m] [Storage m]

/-- The contents of a file as text. -/
def readText (path : String) : m (Except FileError String) := do
  match ← read path with
  | .error e => return .error e
  | .ok bytes =>
      match Text.decodeUtf8 bytes with
      | .error _ => return .error .notText
      | .ok text => return .ok text

end Storage

end BlockAffinity
