import BlockAffinity.CommandLine.Program
import BlockAffinity.Proofs.CommandLine.Precedence
import BlockAffinity.Storage.Disk

/-!
# BlockAffinity.Proofs.CommandLine.Runs

**Runs from the command line.** The arguments are read before any file is. What they say comes down
to a settings file, an output directory, whether kept scores are dropped, and a function on settings
that is applied to those of the file (`runConfigured`, `analyze_eq`). For the spelling of items this
function is the one that `Configured` describes (`run_spell_eq`). So items in another order make the
same run, up to the order in which unknown arguments are noted (`run_under_last_values`).
-/

namespace BlockAffinity.CommandLine

variable {α : Type} [Scalar α] [ScalarText α] {m : Type → Type} [Monad m] [Storage m]

/-- The settings that a run starts from: those of a file if one is named, else the standard ones. -/
def startSettings (config : Option String) : Task α m (Settings α) :=
  match config with
  | none => pure .standard
  | some path => do
      let loaded ← (Run.loadSettings path : m (Except (Fault α) (Settings α)))
      Task.ofResult (during (.loadSettings path) (loaded.mapError Cause.fault))

/-- Drops the scores that are kept for an input, if this is asked for and the cache is used. -/
def refreshScores (cache : ScoreCache) (input : String) (refresh : Bool) (settings : Settings α) :
    Task α m Unit :=
  if refresh && settings.useCache then Run.forgetScores input settings cache else pure ()

/-- A run under settings, after lines that have been printed. -/
def runUnder (cache : ScoreCache) (input : String) (output : Option String) (refresh : Bool)
    (noted : List String) (settings : Settings α) : m Outcome := do
  match ← (refreshScores cache input refresh settings : Task α m Unit).run with
  | .error failure => return .of noted (some failure)
  | .ok () =>
      let announced := noted ++ [s!"Clustering blocks from: {input}"]
      let used := if settings.useCache then some cache else none
      match ← (Run.analyzeFile input settings used output : Task α m _).run with
      | .error failure => return .of announced (some failure)
      | .ok (analysis, _) =>
          return .of (α := α) (announced ++ summaryLines analysis output) none

/-- A run on an input file under the settings that are made of those it starts from. Arguments that
are neither flags nor switches have been noted. -/
def runConfigured (cache : ScoreCache) (input : String) (config output : Option String)
    (refresh : Bool) (configured : Settings α → Settings α) (unknown : List String) :
    m Outcome := do
  let noted := unknown.map fun argument => s!"Unknown argument: {argument}"
  match ← (startSettings config : Task α m (Settings α)).run with
  | .error failure => return .of noted (some failure)
  | .ok fromFile => runUnder cache input output refresh noted (configured fromFile)

variable [LawfulMonad m] {o : Options} {configured : Settings α → Settings α}

/-- **The settings of a run** are made of those it starts from before kept scores are dropped. -/
theorem prepare_eq (cache : ScoreCache) (input : String)
    (happly : ∀ fromFile, applyOptions fromFile o = .ok (configured fromFile)) :
    (prepare cache input o : Task α m (Settings α)) =
      startSettings o.config >>= fun fromFile =>
        refreshScores cache input (o.has .refreshCache) (configured fromFile) >>= fun _ =>
          pure (configured fromFile) := by
  have hresult (fromFile : Settings α) :
      (Task.ofResult (applyOptions fromFile o) : Task α m (Settings α)) =
        pure (configured fromFile) := by
    rw [happly]
    rfl
  have hrefresh (settings : Settings α) :
      (if (o.has .refreshCache && settings.useCache) = true then
          (do Run.forgetScores input settings cache; pure settings)
        else pure settings : Task α m (Settings α)) =
      refreshScores cache input (o.has .refreshCache) settings >>= fun _ => pure settings := by
    unfold refreshScores
    split
    · rfl
    · rw [pure_bind]
  unfold prepare startSettings
  simp only [hresult, pure_bind, hrefresh]
  cases o.config with
  | none => simp only [pure_bind]
  | some path => simp only [bind_assoc]

/-- **A run whose options can be applied** is a run under the settings that they make. -/
theorem analyze_eq (cache : ScoreCache) {input : String} {arguments unknown : List String}
    (hreading : readOptions arguments = ⟨unknown, .ok o⟩)
    (happly : ∀ fromFile, applyOptions fromFile o = .ok (configured fromFile)) :
    (analyze (α := α) cache input arguments : m Outcome) =
      runConfigured cache input o.config o.output (o.has .refreshCache) configured unknown := by
  unfold analyze runConfigured
  simp only [hreading, prepare_eq cache input happly, ExceptT.run_bind, bind_assoc]
  congr
  funext started
  cases started with
  | error failure => simp only [pure_bind]
  | ok fromFile =>
      simp only [runUnder, bind_assoc]
      congr
      funext refreshed
      cases refreshed with
      | error failure => simp only [pure_bind]
      | ok done => exact pure_bind (Except.ok (configured fromFile)) _

theorem ofArguments_of_head? {input : String} (h : input.toList.head? ≠ some '-')
    (rest : List String) : Command.ofArguments (input :: rest) = .analyze input rest := by
  have hne (command : String) (hcommand : command.toList.head? = some '-') : input ≠ command := by
    rintro rfl
    exact h hcommand
  rw [Command.ofArguments, if_neg (not_or.mpr ⟨hne _ rfl, hne _ rfl⟩), if_neg (hne _ rfl), if_neg h]

/-- **A run on an input file** whose arguments are the spelling of items runs under settings that
the items ask for. -/
theorem run_spell_eq {input : String} (hinput : input.toList.head? ≠ some '-') {items : List Item}
    (hreadable : ∀ item ∈ items, item.IsReadable α)
    (hconfigured : ∀ fromFile, Configured fromFile items (configured fromFile))
    (program cacheBase : String) :
    (run (α := α) program cacheBase (input :: Item.spell items) : m Outcome) =
      runConfigured ⟨Path.join cacheBase ScoreCache.directoryName⟩ input
        (Item.lastValue? .config items) (Item.lastValue? .output items)
        (decide (.refreshCache ∈ Item.switchesOf items)) configured (Item.unknownOf items) := by
  have happly (fromFile : Settings α) :
      applyOptions fromFile (Options.none.add items) = .ok (configured fromFile) :=
    (applyOptions_add_eq_ok_iff hreadable).mpr (hconfigured fromFile)
  have hconfig : (Options.none.add items).config = Item.lastValue? .config items := Option.or_none
  have houtput : (Options.none.add items).output = Item.lastValue? .output items := Option.or_none
  rw [run, ofArguments_of_head? hinput]
  dsimp only
  rw [analyze_eq _ (readOptions_spell items) happly, has_add, hconfig, houtput]

/-- **The last value for each setting counts, and switches count wherever they stand.** Arguments
are items unless a flag at their end lacks its value. If the values for settings can be read, then a
run on an input file is one under the settings of the file that the last `--config` names, the
standard ones without it, with what the items ask for on top: it writes to the last `--output` and
drops kept scores if `--refresh-cache` occurs and the cache is used at all.

Items that stand in another order, with the values for each flag as before, make a run with the
same settings and files; only the arguments that are passed over may be noted in another order. -/
theorem run_under_last_values {input : String} (hinput : input.toList.head? ≠ some '-')
    (program cacheBase : String) :
    (∀ arguments, Item.IsComplete arguments ↔ ¬Item.LacksValue arguments) ∧
    ∀ items : List Item, (∀ item ∈ items, item.IsReadable α) →
      ∃ configured : Settings α → Settings α,
        (∀ fromFile, Configured fromFile items (configured fromFile)) ∧
        (run (α := α) program cacheBase (input :: Item.spell items) : m Outcome) =
          runConfigured ⟨Path.join cacheBase ScoreCache.directoryName⟩ input
            (Item.lastValue? .config items) (Item.lastValue? .output items)
            (decide (.refreshCache ∈ Item.switchesOf items)) configured (Item.unknownOf items) ∧
        ∀ others, Regrouped items others →
          (run (α := α) program cacheBase (input :: Item.spell others) : m Outcome) =
            runConfigured ⟨Path.join cacheBase ScoreCache.directoryName⟩ input
              (Item.lastValue? .config items) (Item.lastValue? .output items)
              (decide (.refreshCache ∈ Item.switchesOf items)) configured
              (Item.unknownOf others) := by
  refine ⟨Item.isComplete_iff, fun items hreadable => ?_⟩
  choose configured _ hconfigured using exists_applyOptions_add hreadable
  refine ⟨configured, hconfigured, run_spell_eq hinput hreadable hconfigured .., ?_⟩
  intro others hothers
  have hreadable' : ∀ item ∈ others, item.IsReadable α := fun item hitem =>
    hreadable item (hothers.perm.mem_iff.mp hitem)
  have hconfigured' (fromFile : Settings α) : Configured fromFile others (configured fromFile) :=
    hothers.configured (hconfigured fromFile)
  rw [run_spell_eq hinput hreadable' hconfigured', hothers.lastValue?_eq, hothers.lastValue?_eq,
    decide_eq_decide.mpr (hothers.mem_switchesOf .refreshCache)]

/-- A kind, a threshold and a directory that looks like a flag, a switch between them. -/
def firstItems : List Item :=
  [.flag "--kind" (.setting .kind) "disassembly" (by decide),
    .flag "-t" (.setting .threshold) "0.25" (by decide),
    .switch "--strict" .strict (by decide),
    .other "--fast" (by decide) (by decide),
    .flag "-o" .output "--config" (by decide),
    .flag "-c" .config "first.json" (by decide)]

/-- The settings file that counts after `firstItems`. -/
def lastFile : Item := .flag "--config" .config "last.json" (by decide)

/-- A kind in its other spelling, a sweep and a switch. -/
def lastItems : List Item :=
  [.flag "-k" (.setting .kind) "probability" (by decide),
    .flag "--sweep" (.setting .sweep) "0.5,,0.75" (by decide),
    .switch "--refresh-cache" .refreshCache (by decide)]

/-- The settings file can be named before or after the flags that go on top of it. -/
theorem run_under_last_values_moved :
    let configured (s : Settings Float) : Settings Float :=
      { s with
        inputKind := .probabilities, threshold := some 0.25, malformed := .abort
        sweep := [0.5, 0.75] }
    let configuredRun : StateM Disk Outcome :=
      runConfigured ⟨Path.join "base" ScoreCache.directoryName⟩ "blocks.csv" (some "last.json")
        (some "--config") true configured ["--fast"]
    "blocks.csv".toList.head? ≠ some '-' ∧
    run (α := Float) "blocks" "base"
        ["blocks.csv", "--kind", "disassembly", "-t", "0.25", "--strict", "--fast", "-o",
          "--config", "-c", "first.json", "--config", "last.json", "-k", "probability",
          "--sweep", "0.5,,0.75", "--refresh-cache"] = configuredRun ∧
    run (α := Float) "blocks" "base"
        ["blocks.csv", "--kind", "disassembly", "-t", "0.25", "--strict", "--fast", "-o",
          "--config", "-c", "first.json", "-k", "probability", "--sweep", "0.5,,0.75",
          "--refresh-cache", "--config", "last.json"] = configuredRun := by
  intro configured configuredRun
  have hinput : "blocks.csv".toList.head? ≠ some '-' := by decide
  have hreadable : ∀ item ∈ firstItems ++ lastFile :: (lastItems ++ []), item.IsReadable Float := by
    rw [forall_isReadable_iff]
    have hoverrides : Item.overridesOf (firstItems ++ lastFile :: (lastItems ++ [])) =
        [(.kind, "disassembly"), (.threshold, "0.25"), (.kind, "probability"),
          (.sweep, "0.5,,0.75")] := rfl
    simp only [hoverrides, List.forall_mem_cons]
    exact ⟨⟨.disassembly, rfl⟩, ⟨some 0.25, 0.25, rfl, rfl⟩, ⟨.probabilities, rfl⟩,
      ⟨[0.5, 0.75], rfl⟩, List.forall_mem_nil _⟩
  have hmoved : Regrouped (firstItems ++ lastFile :: (lastItems ++ []))
      (firstItems ++ (lastItems ++ lastFile :: [])) := by
    apply Regrouped.move
    intro flag
    cases flag with
    | output => exact .inl rfl
    | config => exact .inr rfl
    | setting setting => exact .inl rfl
  obtain ⟨found, hfound, hrun, hothers⟩ := (run_under_last_values (α := Float) (m := StateM Disk)
    hinput "blocks" "base").2 _ hreadable
  have hconfigured (s : Settings Float) :
      Configured s (firstItems ++ lastFile :: (lastItems ++ [])) (configured s) := by
    refine ⟨fun setting => ?_, rfl, rfl, rfl, rfl⟩
    cases setting with
    | kind => rfl
    | metric => rfl
    | linkage => rfl
    | threshold => exact ⟨0.25, rfl, rfl⟩
    | sweep => rfl
  have hsame : found = configured := funext fun s => (hfound s).unique (hconfigured s)
  rw [hsame] at hrun hothers
  exact ⟨hinput, hrun, hothers _ hmoved⟩

end BlockAffinity.CommandLine
