import BlockAffinity.Block
import BlockAffinity.Decimal.Text

/-!
# BlockAffinity.Fault

**Why a stage of the analysis fails.** A fault is a cause with what is needed to find it: the line
of a row, the cell of a matrix, the pair of blocks. The wording stands in `message` alone.

Only a malformed row can be skipped; every other fault ends the stage that meets it. Each family of
causes also has a free form, for causes that come from outside the library.
-/

namespace BlockAffinity

/-- Where something went wrong: a component, what it was doing, and what it was doing it to. -/
structure Context where
  component : String
  operation : String
  details : Option String
  deriving Repr, DecidableEq

/-- The text of a context. -/
def Context.message (c : Context) : String :=
  s!"In {c.component} while {c.operation}" ++
    match c.details with
    | none => ""
    | some details => s!" ({details})"

/-- A context without its details. -/
def Context.brief (c : Context) : Context := { c with details := none }

/-- What is wrong with a row of an input table. -/
inductive RowDefect (α : Type)
  /-- A quoted field is not closed. -/
  | unterminatedField
  /-- The header lacks a column; the columns it has are listed. -/
  | missingColumn (name : String) (found : List String)
  /-- A required field is missing or blank. -/
  | missingField (column : String)
  /-- A text names no role. -/
  | unknownRole (text : String)
  /-- A probability is not a number. -/
  | unreadableProbability (column text : String)
  /-- A probability is negative or not finite. -/
  | unusableProbability (column : String) (value : α)
  | other (text : String)

/-- Which property of a distance matrix does not hold. -/
inductive MatrixDefect (α : Type)
  | rowCount (expected found : Nat)
  | columnCount (expected found : Nat)
  | diagonal (block : BlockId) (value : α)
  | nonFinite (value : α)
  | negative (value : α)
  | asymmetric (row column : BlockId) (upper lower : α)
  /-- There are fewer values than the blocks call for. -/
  | absent
  | other (text : String)

/-- Why silhouettes do not exist. -/
inductive SilhouetteGap
  | noBlocks
  | tooFewClusters (clusters blocks : Nat)
  | other (text : String)
  deriving Repr, DecidableEq

/-- Which inputs do not fit together. -/
inductive ShapeDefect
  | leafCount (leaves blocks : Nat)
  | unknownCluster (left right : Nat)
  | other (text : String)
  deriving Repr, DecidableEq

/-- Why settings are refused. -/
inductive SettingsDefect (α : Type)
  | threshold (value : α)
  | cutUndefined
  /-- A document, described by the context in which it was read, holds no settings. -/
  | unreadable (context : Context)
  | other (text : String)

/-- The cause of a failed stage. -/
inductive Fault (α : Type)
  | malformedRecord (line : Nat) (defect : RowDefect α)
  | invalidMatrix (row column : Nat) (defect : MatrixDefect α)
  | invalidScore (left right : BlockId) (score : α)
  | undefinedSilhouette (gap : SilhouetteGap)
  /-- A block has no cluster label. -/
  | unlabelled (block : BlockId)
  | unknownBlock (text : String)
  | shapeMismatch (defect : ShapeDefect)
  | settings (defect : SettingsDefect α)
  /-- A file operation failed with this text. -/
  | input (text : String)
  | unknown (text : String)

variable {α : Type}

/-- A failure that surfaces in some context. -/
inductive Trouble (α : Type)
  | fault (fault : Fault α)
  /-- A file operation failed with this text. -/
  | input (text : String)
  | numeral (fault : Decimal.NumeralFault)

/-- Whether the analysis may go on without the offending row. -/
def Fault.isRecoverable : Fault α → Bool
  | .malformedRecord .. => true
  | _ => false

/-- The text of a row's defect. -/
def RowDefect.message [ScalarText α] : RowDefect α → String
  | .unterminatedField => "unterminated quoted field"
  | .missingColumn name found =>
      "missing column '" ++ name ++ "' (found: " ++ String.intercalate ", " found ++ ")"
  | .missingField column => s!"missing {column}"
  | .unknownRole text => "unknown variable type '" ++ Text.trim text ++ "'"
  | .unreadableProbability column text => s!"unparseable {column} '" ++ text ++ "'"
  | .unusableProbability column value =>
      s!"{column} must be finite and non-negative, got " ++ ScalarText.write value
  | .other text => text

/-- The text of a matrix defect. -/
def MatrixDefect.message [ScalarText α] : MatrixDefect α → String
  | .rowCount expected found => s!"expected {expected} rows, found {found}"
  | .columnCount expected found => s!"expected {expected} columns, found {found}"
  | .diagonal block value =>
      s!"diagonal entry for block {block.text} is " ++ ScalarText.write value
  | .nonFinite value => "non-finite distance " ++ ScalarText.write value
  | .negative value => "negative distance " ++ ScalarText.write value
  | .asymmetric row column upper lower =>
      s!"asymmetric: d({row.text}, {column.text}) = " ++ ScalarText.write upper
        ++ s!" but d({column.text}, {row.text}) = " ++ ScalarText.write lower
  | .absent => "missing value"
  | .other text => text

/-- The text of a silhouette gap. -/
def SilhouetteGap.message : SilhouetteGap → String
  | .noBlocks => "no blocks to evaluate"
  | .tooFewClusters clusters blocks =>
      s!"{clusters} cluster(s) over {blocks} block(s), at least 2 are required"
  | .other text => text

/-- The text of a shape defect. -/
def ShapeDefect.message : ShapeDefect → String
  | .leafCount leaves blocks => s!"tree has {leaves} leaves but {blocks} block ids were given"
  | .unknownCluster left right => s!"merge of {left} and {right} references an unknown cluster"
  | .other text => text

/-- The text of a settings defect. -/
def SettingsDefect.message [ScalarText α] : SettingsDefect α → String
  | .threshold value =>
      "threshold must be a finite non-negative number, got " ++ ScalarText.write value
  | .cutUndefined => "cut threshold is NaN"
  | .unreadable context => context.message ++ ": not a settings document"
  | .other text => text

/-- The text of a fault. -/
def Fault.message [ScalarText α] : Fault α → String
  | .malformedRecord line defect => s!"Malformed record at line {line}: {defect.message}"
  | .invalidMatrix row column defect =>
      s!"Invalid distance matrix at ({row}, {column}): {defect.message}"
  | .invalidScore left right score =>
      "Invalid score " ++ ScalarText.write score ++ s!" for pair ({left.text}, {right.text})"
  | .undefinedSilhouette gap => s!"Silhouette undefined: {gap.message}"
  | .unlabelled block => s!"Unknown block: {block.text} has no cluster label"
  | .unknownBlock text => s!"Unknown block: {text}"
  | .shapeMismatch defect => s!"Shape mismatch: {defect.message}"
  | .settings defect => s!"Configuration error: {defect.message}"
  | .input text => s!"I/O error: {text}"
  | .unknown text => s!"Unknown error: {text}"

/-- The fault that a failure is in its context. A fault stays as it is, anything else is told
together with the context. -/
def Trouble.within (context : Context) : Trouble α → Fault α
  | .fault f => f
  | .input text => .input (context.message ++ ": " ++ text)
  | .numeral f => .unknown (context.message ++ ": " ++ f.message)

end BlockAffinity
