import BlockAffinity.Proofs.Analysis.Totality
import BlockAffinity.Proofs.Run.History

/-!
# BlockAffinity.Proofs.Run.Entries

**What the contents of an entry can do to a run.** Contents that are no text, no document or no
scores count as absent, and so do scores of other blocks. Scores of just the profiled blocks are used
as they are: if their distances have a defect, the run ends with it, although it would go through
without the cache, and in every other case it goes through (`analyzeFile_of_entry`). Whether the
entry has a value for each cell is not looked at before (`analyzeFile_missingValue`).
-/

namespace BlockAffinity.Run

/-- Contents of an entry that are read as scores of just the profiled blocks, whose distances have a
defect. -/
def Spoils (contents : ByteArray) (profiles : Profiles Float) (fault : Fault Float) : Prop :=
  ∃ scores, FileMap.readEntry contents = some scores ∧ scores.distances.ids = profiles.ids ∧
    scores.distances.validate = .error fault

variable {settings : Settings Float} {path : String} {bytes contents : ByteArray}
  {a : Analysis Float}

/-- Contents with a defect end a run that would go through. -/
theorem analyzeBytes_of_spoils (h : analyzeBytes settings path bytes none = .ok a)
    {fault : Fault Float} (hspoils : Spoils contents a.profiles fault) :
    analyzeBytes settings path bytes (FileMap.readEntry contents) =
      .error ⟨[.analyze path], .fault fault⟩ := by
  obtain ⟨hvalid, loaded, found, hload, hfound, rfl⟩ := analyzeBytes_eq_ok_iff.mp h
  obtain ⟨scores, hscores, hids, hdefect⟩ := hspoils
  have hprofiles : found.profiles = loaded.1 := Analysis.profiles_of_run hfound
  have hrun : Analysis.run settings loaded.1 loaded.2 (some scores) = .error fault :=
    Analysis.run_of_defect (hids.trans (congrArg Roster.ids hprofiles)) hdefect loaded.2
  rw [hscores, analyzeBytes, hvalid, hload]
  show analyzeProfiles settings path loaded (some scores) = _
  rw [analyzeProfiles, hrun]
  rfl

/-- All other contents let it go through. -/
theorem exists_analyzeBytes_of_not_spoils (h : analyzeBytes settings path bytes none = .ok a)
    (hspoils : ∀ fault, ¬Spoils contents a.profiles fault) :
    ∃ b, analyzeBytes settings path bytes (FileMap.readEntry contents) = .ok b ∧
      b.profiles = a.profiles := by
  cases hscores : FileMap.readEntry (α := Float) contents with
  | none => exact ⟨a, h, rfl⟩
  | some scores =>
      obtain ⟨hvalid, loaded, found, hload, hfound, rfl⟩ := analyzeBytes_eq_ok_iff.mp h
      have hprofiles : found.profiles = loaded.1 := Analysis.profiles_of_run hfound
      suffices hrun : ∃ b, Analysis.run settings loaded.1 loaded.2 (some scores) = .ok b by
        obtain ⟨b, hrun⟩ := hrun
        exact ⟨_, analyzeBytes_eq_ok_iff.mpr ⟨hvalid, loaded, b, hload, hrun, rfl⟩,
          (Analysis.profiles_of_run hrun).trans hprofiles.symm⟩
      by_cases hids : scores.distances.ids = loaded.1.ids
      · cases hdistances : scores.distances.validate with
        | error fault =>
            exact absurd ⟨scores, hscores, hids.trans (congrArg Roster.ids hprofiles.symm),
              hdistances⟩ (hspoils fault)
        | ok sound =>
            have hchoice : Analysis.chooseScores settings loaded.1 (some scores) =
                .ok (scores, true) := by
              rw [Analysis.chooseScores, if_pos hids]
            obtain ⟨b, hrun, -⟩ := Analysis.exists_run_eq_ok loaded.2 hchoice hdistances
              (hids ▸ loaded.1.distinct) fun value hvalue => Settings.isNaN_of_validate hvalid hvalue
            exact ⟨b, hrun⟩
      · exact ⟨found, (Analysis.run_of_otherBlocks hids loaded.2).trans hfound⟩

variable {σ : Type} [Storage (StateM σ)] {input : String} {cache : ScoreCache} {s : σ} {h : Holdings}

/-- What a run with the cache gives is what the bytes give with what their entry is read as. -/
theorem run_analyzeFile_of_entry (files : FileMap σ input cache) (hs : files.Holds s h)
    (hentry : h.file? (ScoreCache.keyFor h.input settings) = some contents) :
    ((analyzeFile input settings (some cache) none : Task Float (StateM σ) _).run.run s).1 =
      (analyzeBytes settings input h.input (FileMap.readEntry contents)).map
        fun analysis => (analysis, []) := by
  have hkept := files.run_keptScores (α := Float) hs (ScoreCache.isKey_keyFor h.input settings)
  rw [hentry, Option.bind_some] at hkept
  rw [run_analyzeFile (files.read_input hs) hkept]
  cases analyzeBytes settings input h.input (FileMap.readEntry contents) with
  | error failure => rfl
  | ok analysis => rfl

/-- **An entry breaks a run** that would go through exactly if it holds scores of just the profiled
blocks whose distances have a defect, and then the run ends with this defect. -/
theorem analyzeFile_of_entry (files : FileMap σ input cache) (hs : files.Holds s h)
    (hentry : h.file? (ScoreCache.keyFor h.input settings) = some contents)
    (hfresh : ((analyzeFile input settings none none : Task Float (StateM σ) _).run.run s).1 =
      .ok (a, [])) :
    (∀ fault, Spoils contents a.profiles fault →
      ((analyzeFile input settings (some cache) none : Task Float (StateM σ) _).run.run s).1 =
        .error ⟨[.analyze input], .fault fault⟩) ∧
    ((∀ fault, ¬Spoils contents a.profiles fault) →
      ∃ b, ((analyzeFile input settings (some cache) none : Task Float (StateM σ) _).run.run s).1 =
        .ok (b, []) ∧ b.profiles = a.profiles) := by
  rw [run_analyzeFile_uncached (files.read_input hs)] at hfresh
  obtain ⟨_, hbytes, hsame⟩ := exists_of_map_eq_ok hfresh
  cases hsame
  rw [run_analyzeFile_of_entry files hs hentry]
  constructor
  · intro fault hspoils
    rw [analyzeBytes_of_spoils hbytes hspoils]
    rfl
  · intro hspoils
    obtain ⟨b, hb, hprofiles⟩ := exists_analyzeBytes_of_not_spoils hbytes hspoils
    exact ⟨b, by rw [hb]; rfl, hprofiles⟩

/-! ### An entry without values -/

/-- A disk with an input file and one entry of the cache beside it. -/
def withEntry (bytes : ByteArray) (key : String) (contents : ByteArray) : Disk :=
  ⟨["w"], .directory [("w", .directory [("in.csv", .file bytes),
    ("cache", .directory [(key ++ ".json", .file contents)])])]⟩

/-- What it holds. -/
def oneEntry (bytes : ByteArray) (key : String) (contents : ByteArray) : Holdings :=
  ⟨bytes, some fun other => if other = key then some contents else none⟩

theorem file?_oneEntry (bytes : ByteArray) (key : String) (contents : ByteArray) :
    (oneEntry bytes key contents).file? key = some contents := if_pos rfl

theorem holds_withEntry (bytes : ByteArray) (key : String) (contents : ByteArray) :
    besideCache.fileMap.Holds (withEntry bytes key contents) (oneEntry bytes key contents) where
  current_eq := rfl
  input_eq := rfl
  above := ⟨_, rfl⟩
  missing := nofun
  directory _ := ⟨_, rfl⟩
  entry {other} _ := by
    show ([(key ++ ".json", Node.file contents)].lookup (other ++ ".json")).bind some = _
    by_cases hsame : other = key
    · subst hsame
      simp [Holdings.file?, oneEntry]
    · have hname : other ++ ".json" ≠ key ++ ".json" := by simpa using hsame
      simp [Holdings.file?, oneEntry, hsame, hname]

/-- Scores of one block without its value. -/
def emptied : Scores Float := ⟨⟨[⟨"a"⟩], #[]⟩, none, 0⟩

theorem exists_analyzeBytes_oneBlock :
    ∃ a, analyzeBytes (Settings.standard : Settings Float) "in.csv" oneBlock none = .ok a ∧
      a.profiles.ids = [⟨"a"⟩] := by
  have hevaluated : (analyzeBytes (Settings.standard : Settings Float) "in.csv" oneBlock
      none).toOption.any (fun a => a.profiles.ids = [⟨"a"⟩]) = true := by
    decide +kernel
  cases hbytes : analyzeBytes (Settings.standard : Settings Float) "in.csv" oneBlock none with
  | error failure =>
      rw [hbytes, Except.toOption, Option.any_none] at hevaluated
      exact absurd hevaluated Bool.false_ne_true
  | ok a =>
      rw [hbytes, Except.toOption, Option.any_some] at hevaluated
      exact ⟨a, rfl, of_decide_eq_true hevaluated⟩

/-- Without the cache its entry does not matter. -/
theorem run_analyzeFile_withEntry {a : Analysis Float}
    (ha : analyzeBytes Settings.standard "in.csv" oneBlock none = .ok a) (key : String)
    (contents : ByteArray) :
    ((analyzeFile "in.csv" Settings.standard none none : Task Float (StateM Disk) _).run.run
      (withEntry oneBlock key contents)).1 = .ok (a, []) := by
  have hread : (Storage.read "in.csv" : StateM Disk _).run (withEntry oneBlock key contents) =
      (.ok oneBlock, withEntry oneBlock key contents) :=
    besideCache.fileMap.read_input (holds_withEntry oneBlock key contents)
  rw [run_analyzeFile_uncached hread, ha]
  rfl

theorem spoils_emptied {profiles : Profiles Float} (h : profiles.ids = [⟨"a"⟩]) :
    Spoils emptied.document.compact.toUTF8 profiles (.invalidMatrix 0 0 .absent) := by
  have hback : IsReadBack emptied := by decide +kernel
  exact ⟨emptied, hback.readEntry_eq, h.symm, rfl⟩

/-- **A missing value breaks a run** that goes through without the cache. -/
theorem analyzeFile_missingValue :
    let key := ScoreCache.keyFor oneBlock (Settings.standard : Settings Float)
    let d := withEntry oneBlock key emptied.document.compact.toUTF8
    (∃ a, ((analyzeFile "in.csv" Settings.standard none none :
        Task Float (StateM Disk) _).run.run d).1 = .ok (a, [])) ∧
      ((analyzeFile "in.csv" Settings.standard (some ⟨"cache"⟩) none :
        Task Float (StateM Disk) _).run.run d).1 =
          .error ⟨[.analyze "in.csv"], .fault (.invalidMatrix 0 0 .absent)⟩ := by
  intro key d
  have hs := holds_withEntry oneBlock key emptied.document.compact.toUTF8
  obtain ⟨a, ha, hids⟩ := exists_analyzeBytes_oneBlock
  have hbytes := analyzeBytes_of_spoils ha (spoils_emptied hids)
  exact ⟨⟨a, run_analyzeFile_withEntry ha _ _⟩,
    (run_analyzeFile_of_entry besideCache.fileMap hs (file?_oneEntry _ _ _)).trans
      (congrArg (Except.map fun analysis => (analysis, [])) hbytes)⟩

/-- The same run ends with the missing value, and goes through if the entry is no document. -/
theorem analyzeFile_of_entry_oneBlock :
    let key := ScoreCache.keyFor oneBlock (Settings.standard : Settings Float)
    let missing := emptied.document.compact.toUTF8
    let spoiled := withEntry oneBlock key missing
    let unreadable := withEntry oneBlock key "none".toUTF8
    besideCache.fileMap.Holds spoiled (oneEntry oneBlock key missing) ∧
      (oneEntry oneBlock key missing).file? key = some missing ∧
      (∃ a, ((analyzeFile "in.csv" Settings.standard none none :
        Task Float (StateM Disk) _).run.run spoiled).1 = .ok (a, [])) ∧
      ((analyzeFile "in.csv" Settings.standard (some ⟨"cache"⟩) none :
        Task Float (StateM Disk) _).run.run spoiled).1 =
          .error ⟨[.analyze "in.csv"], .fault (.invalidMatrix 0 0 .absent)⟩ ∧
      ∃ b, ((analyzeFile "in.csv" Settings.standard (some ⟨"cache"⟩) none :
        Task Float (StateM Disk) _).run.run unreadable).1 = .ok (b, []) := by
  intro key missing spoiled unreadable
  have hspoiled := holds_withEntry oneBlock key missing
  have hunreadable := holds_withEntry oneBlock key "none".toUTF8
  obtain ⟨a, ha, hids⟩ := exists_analyzeBytes_oneBlock
  have habsent : FileMap.readEntry (α := Float) "none".toUTF8 = none := by decide +kernel
  have hnothing : ∀ fault, ¬Spoils "none".toUTF8 a.profiles fault := by
    rintro fault ⟨scores, hscores, -⟩
    exact absurd (habsent.symm.trans hscores) (by simp)
  refine ⟨hspoiled, file?_oneEntry _ _ _, ⟨a, run_analyzeFile_withEntry ha _ _⟩, ?_, ?_⟩
  · exact (analyzeFile_of_entry besideCache.fileMap hspoiled (file?_oneEntry _ _ _) (run_analyzeFile_withEntry ha _ _)).1 _
      (spoils_emptied hids)
  · obtain ⟨b, hb, -⟩ := (analyzeFile_of_entry besideCache.fileMap hunreadable (file?_oneEntry _ _ _)
      (run_analyzeFile_withEntry ha _ _)).2 hnothing
    exact ⟨b, hb⟩

end BlockAffinity.Run
