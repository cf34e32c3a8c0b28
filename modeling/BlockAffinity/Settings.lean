import BlockAffinity.Ingest.RawRow
import BlockAffinity.Linkage.Dendrogram
import BlockAffinity.Scalar

/-!
# BlockAffinity.Settings

**What a run is asked to do.** Thresholds have to be finite and not negative; everything else about
settings holds by their types.
-/

namespace BlockAffinity

/-- What the rows of the input table are. -/
inductive InputKind
  | occurrences
  | probabilities
  | disassembly
  deriving Repr, DecidableEq, Inhabited

/-- How pairs of blocks are scored. -/
inductive Metric
  /-- The Jensen–Shannon divergence, which is a distance. -/
  | jsd
  /-- The overlap of probabilities, a similarity that is turned into a distance. -/
  | overlap
  deriving Repr, DecidableEq, Inhabited

/-- The name of an input kind. -/
def InputKind.label : InputKind → String
  | occurrences => "occurrences"
  | probabilities => "probabilities"
  | disassembly => "disassembly"

/-- The name of a metric. -/
def Metric.label : Metric → String
  | jsd => "jsd"
  | overlap => "overlap"

/-- The name of a policy. -/
def Ingest.Policy.label : Ingest.Policy → String
  | skip => "skip"
  | abort => "abort"

/-- Reads a name that a user has typed: blanks around it and case do not matter. -/
def normalizedName (text : String) : String := Text.lower (Text.trim text)

/-- Reads an input kind, in the plural or the singular; on failure the text says so. -/
def InputKind.ofText (text : String) : Except String InputKind :=
  let name := normalizedName text
  if name = "occurrences" ∨ name = "occurrence" then .ok .occurrences
  else if name = "probabilities" ∨ name = "probability" then .ok .probabilities
  else if name = "disassembly" then .ok .disassembly
  else .error ("unknown input kind '" ++ name ++ "'")

/-- Reads a metric; on failure the text says so. -/
def Metric.ofText (text : String) : Except String Metric :=
  let name := normalizedName text
  if name = "jsd" ∨ name = "jensen-shannon" then .ok .jsd
  else if name = "overlap" then .ok .overlap
  else .error ("unknown metric '" ++ name ++ "' (expected 'jsd' or 'overlap')")

/-- Reads a linkage; on failure the text says so. -/
def Linkage.ofText (text : String) : Except String Linkage :=
  let name := normalizedName text
  if name = "average" then .ok .average
  else if name = "ward" then .ok .ward
  else .error ("unknown linkage '" ++ name ++ "' (expected 'average' or 'ward')")

/-- The settings of a run. -/
structure Settings (α : Type) where
  inputKind : InputKind
  metric : Metric
  linkage : Linkage
  /-- Where the dendrogram is cut; without a threshold there are no flat clusters. -/
  threshold : Option α
  /-- Whether only tokens of high entropy are scored. -/
  entropyFilter : Bool
  malformed : Ingest.Policy
  /-- Whether pairs may be scored on several threads; the scores do not depend on it. -/
  parallel : Bool
  /-- Whether scores are kept from run to run. -/
  useCache : Bool
  /-- Further thresholds to report on. -/
  sweep : List α
  deriving Repr

namespace Settings

variable {α : Type} [Scalar α]

open Scalar

/-- The settings where nothing is said. -/
def standard : Settings α where
  inputKind := .occurrences
  metric := .jsd
  linkage := .average
  threshold := some half
  entropyFilter := false
  malformed := .skip
  parallel := true
  useCache := true
  sweep := []

/-- A value that can serve as a threshold. -/
def isThreshold (value : α) : Bool := isFinite value && !lt value zero

/-- The first unusable threshold, the main one before those of the sweep. -/
def badThreshold? (s : Settings α) : Option α :=
  (s.threshold.toList ++ s.sweep).find? fun value => !isThreshold value

/-- Accepts settings whose thresholds can all be used. -/
def validate (s : Settings α) : Except (Fault α) Unit :=
  match s.badThreshold? with
  | none => .ok ()
  | some value => .error (.settings (.threshold value))

end Settings

end BlockAffinity
