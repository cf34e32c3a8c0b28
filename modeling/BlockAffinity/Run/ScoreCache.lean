import BlockAffinity.Digest.Chunks
import BlockAffinity.Report.Documents
import BlockAffinity.Run.Task
import BlockAffinity.Storage.Path

/-!
# BlockAffinity.Run.ScoreCache

**Scores kept from run to run.** The cache is a directory with one document for each key. A key is
the digest of everything that the scores depend on: the bytes of the input, the metric, the input
kind and whether the entropy filter is on, together with the version of the format.

A document that is missing or that is not about scores counts as absent, and the next run that
computes the scores replaces it.
-/

namespace BlockAffinity

/-- A directory of kept scores. -/
structure ScoreCache where
  directory : String
  deriving Repr, DecidableEq

namespace ScoreCache

variable {α : Type}

/-- The name of the cache below the directory for caches. -/
def directoryName : String := "blockclust"

/-- The version of the format, which is part of every key. -/
def formatVersion : Nat := 1

/-- The byte strings that a key is the digest of. -/
def keyChunks (input : ByteArray) (settings : Settings α) : List (List UInt8) :=
  [input.toList, settings.metric.label.toUTF8.toList, settings.inputKind.label.toUTF8.toList,
    [if settings.entropyFilter then 1 else 0], Digest.littleEndian 4 formatVersion]

/-- The key of an input under some settings. -/
def keyFor (input : ByteArray) (settings : Settings α) : String :=
  Digest.digestHex (keyChunks input settings)

/-- The file for a key. -/
def path (cache : ScoreCache) (key : String) : String := Path.join cache.directory s!"{key}.json"

variable {m : Type → Type} [Monad m] [Storage m]

/-- The scores kept under a key. -/
def get [Scalar α] [ScalarText α] (cache : ScoreCache) (key : String) :
    Task α m (Option (Scores α)) := do
  let path := cache.path key
  if ← Task.contains path then
    let text ← Task.step (.readCache path) (Storage.readText path)
    return (Json.readDocument? text).bind Scores.ofDocument?
  else return none

/-- Keeps scores under a key. -/
def save [Scalar α] [ScalarText α] (cache : ScoreCache) (key : String) (scores : Scores α) :
    Task α m Unit := do
  unless ← Task.contains cache.directory do
    Task.step (.createCache cache.directory) (Storage.makeDirectories cache.directory)
  let path := cache.path key
  Task.step (.writeCache path) (Storage.write path scores.document.compact.toUTF8)

/-- Drops the scores kept under a key. -/
def clear (cache : ScoreCache) (key : String) : Task α m Unit := do
  let path := cache.path key
  if ← Task.contains path then Task.step (.removeCached path) (Storage.removeFile path)

/-- Drops all kept scores; the directory stays. -/
def clearAll (cache : ScoreCache) : Task α m Unit := do
  if ← Task.contains cache.directory then
    Task.step (.removeCache cache.directory) (Storage.removeTree cache.directory)
    Task.step (.recreateCache cache.directory) (Storage.makeDirectories cache.directory)

end ScoreCache

end BlockAffinity
