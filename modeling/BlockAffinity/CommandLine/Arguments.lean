import BlockAffinity.Run.Failure
import BlockAffinity.Settings

/-!
# BlockAffinity.CommandLine.Arguments

**What the arguments ask for.** The first argument is a command or the input file; flags follow.
A flag is a switch or takes the next argument as its value, whatever that looks like. Arguments
that are neither are noted and passed over.

Settings come from the file that the last `--config` names. Flags go on top of them in the order
in which they stand, switches last, wherever they stand among the arguments.
-/

namespace BlockAffinity.CommandLine

/-- A setting that a flag gives a value. -/
inductive Setting
  | kind
  | metric
  | linkage
  | threshold
  | sweep
  deriving Repr, DecidableEq

/-- A flag that takes a value. -/
inductive ValueFlag
  | output
  | config
  | setting (setting : Setting)
  deriving Repr, DecidableEq

/-- A flag that takes none. -/
inductive Switch
  | entropyFilter
  | strict
  | sequential
  | noCache
  | refreshCache
  | verbose
  deriving Repr, DecidableEq

/-- The flags that take a value, by their spellings. -/
def valueFlags : List (String × ValueFlag) :=
  [("--output", .output), ("-o", .output), ("--config", .config), ("-c", .config),
    ("--kind", .setting .kind), ("-k", .setting .kind), ("--metric", .setting .metric),
    ("-m", .setting .metric), ("--linkage", .setting .linkage), ("-l", .setting .linkage),
    ("--threshold", .setting .threshold), ("-t", .setting .threshold), ("--sweep", .setting .sweep)]

/-- The switches, by their spellings. -/
def switches : List (String × Switch) :=
  [("--entropy-filter", .entropyFilter), ("--strict", .strict), ("--sequential", .sequential),
    ("--no-cache", .noCache), ("--refresh-cache", .refreshCache), ("--verbose", .verbose)]

/-- How a flag without its value is named: files by the long spelling, settings as typed. -/
def ValueFlag.shownAs (flag : ValueFlag) (typed : String) : String :=
  match flag with
  | .output => "--output"
  | .config => "--config"
  | .setting _ => typed

/-- The arguments after the input file. -/
structure Options where
  output : Option String
  config : Option String
  /-- Values for settings in the order in which they stand. -/
  overrides : List (Setting × String)
  switches : List Switch
  deriving Repr, DecidableEq

namespace Options

/-- No arguments. -/
def none : Options := ⟨.none, .none, [], []⟩

/-- Takes a flag with its value. -/
def take (o : Options) (flag : ValueFlag) (value : String) : Options :=
  match flag with
  | .output => { o with output := some value }
  | .config => { o with config := some value }
  | .setting s => { o with overrides := o.overrides ++ [(s, value)] }

/-- Takes a switch. -/
def turn (o : Options) (switch : Switch) : Options :=
  { o with switches := o.switches ++ [switch] }

/-- Whether a switch is among the arguments. -/
def has (o : Options) (switch : Switch) : Bool := o.switches.contains switch

end Options

/-- What reading the arguments gives: those passed over, and the options or the flag that lacks its
value. -/
structure Reading where
  unknown : List String
  options : Except String Options

/-- Reads arguments on top of those read before. -/
def readFrom (unknown : List String) (o : Options) : List String → Reading
  | [] => ⟨unknown, .ok o⟩
  | [argument] =>
      match valueFlags.lookup argument with
      | some flag => ⟨unknown, .error (flag.shownAs argument)⟩
      | none =>
          match switches.lookup argument with
          | some switch => ⟨unknown, .ok (o.turn switch)⟩
          | none => ⟨unknown ++ [argument], .ok o⟩
  | argument :: next :: rest =>
      match valueFlags.lookup argument with
      | some flag => readFrom unknown (o.take flag next) rest
      | none =>
          match switches.lookup argument with
          | some switch => readFrom unknown (o.turn switch) (next :: rest)
          | none => readFrom (unknown ++ [argument]) o (next :: rest)

/-- Reads the arguments after the input file. -/
def readOptions (arguments : List String) : Reading := readFrom [] .none arguments

variable {α : Type} [Scalar α] [ScalarText α]

/-- Reads a number that an argument consists of. -/
def readNumber (activity : Activity) (text : String) : Except (Failure α) α :=
  during activity ((ScalarText.read text).mapError Cause.numeral)

/-- The pieces of a text between commas. -/
def splitCommas : List Char → List (List Char)
  | [] => [[]]
  | c :: rest =>
      if c = ',' then [] :: splitCommas rest
      else
        match splitCommas rest with
        | [] => [[c]]
        | piece :: pieces => (c :: piece) :: pieces

/-- The thresholds of a list with commas between them. Blank pieces are passed over. -/
def readSweep (text : String) : Except (Failure α) (List α) :=
  (((splitCommas text.toList).map String.ofList).filter fun piece => !Text.isBlank piece).mapM
    fun piece => readNumber (.readSweepThreshold piece) (Text.trim piece)

/-- A name that an argument consists of. -/
def readName {β : Type} (name : Except String β) : Except (Failure α) β :=
  name.mapError fun text => ⟨[], .unknownName text⟩

/-- Puts the value of a flag into settings. -/
def override (s : Settings α) (setting : Setting) (text : String) :
    Except (Failure α) (Settings α) :=
  match setting with
  | .kind => (readName (InputKind.ofText text)).map fun kind => { s with inputKind := kind }
  | .metric => (readName (Metric.ofText text)).map fun metric => { s with metric }
  | .linkage => (readName (Linkage.ofText text)).map fun linkage => { s with linkage }
  | .threshold =>
      (readNumber (.readThreshold text) text).map fun value => { s with threshold := some value }
  | .sweep => (readSweep text).map fun sweep => { s with sweep }

/-- Puts the values of flags into settings, one after the other. -/
def overrideAll (s : Settings α) : List (Setting × String) → Except (Failure α) (Settings α)
  | [] => .ok s
  | (setting, text) :: rest =>
      match override s setting text with
      | .error failure => .error failure
      | .ok changed => overrideAll changed rest

omit [Scalar α] [ScalarText α] in
/-- Settings with the switches turned. -/
def withSwitches (s : Settings α) (o : Options) : Settings α where
  inputKind := s.inputKind
  metric := s.metric
  linkage := s.linkage
  threshold := s.threshold
  entropyFilter := s.entropyFilter || o.has .entropyFilter
  malformed := if o.has .strict then .abort else s.malformed
  parallel := s.parallel && !o.has .sequential
  useCache := s.useCache && !o.has .noCache
  sweep := s.sweep

/-- The settings of a run, from those of the file and the options. -/
def applyOptions (s : Settings α) (o : Options) : Except (Failure α) (Settings α) :=
  (overrideAll s o.overrides).map fun changed => withSwitches changed o

end BlockAffinity.CommandLine
