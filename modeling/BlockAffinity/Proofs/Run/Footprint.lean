import BlockAffinity.Proofs.Run.Entries
import BlockAffinity.Proofs.Storage.Places

/-!
# BlockAffinity.Proofs.Run.Footprint

**What a run leaves alone.** A run looks at files until its analysis is done (`findAnalysis`,
`along_findAnalysis`), and only then keeps scores and writes its files (`analyzeFile_eq`). So a run that
fails before leaves the storage as it was. Any other run changes at most the entry for its key, if its
scores are new, and the files that it is asked to write (`along_keepAnalysis`). Forgetting and clearing
change at most the one entry of their key.
-/

namespace BlockAffinity.Run

variable {α : Type} [Scalar α] [ScalarText α]

/-! ### Places -/

section places

variable {σ : Type} [Storage (StateM σ)]

/-- The place of the entry that a run keeps; a run on kept scores keeps none. -/
def entryPlaces (F : FileFrame σ) (cache : Option ScoreCache) (key : String)
    (analysis : Analysis α) : Set F.Place :=
  {p | analysis.report.fromCache = false ∧ ∃ c ∈ cache, p = F.place (c.path key)}

/-- The place that a path leads to from the working directory. -/
def absolutePlace (F : FileFrame σ) (path : String) : F.Place :=
  F.place (if Path.isAbsolute path then path else Path.join F.current path)

/-- The places of the files that a run is asked to write. -/
def outputPlaces (F : FileFrame σ) (output : Option String) (analysis : Analysis α) : Set F.Place :=
  {p | ∃ directory ∈ output, ∃ file ∈ Outputs.files analysis,
    p = absolutePlace F (Path.join directory file.1)}

end places

end BlockAffinity.Run

namespace BlockAffinity.FileFrame

open Run

variable {α σ : Type} [Storage (StateM σ)] {F : FileFrame σ}

/-! ### Programs that only look -/

theorem along_read (path : String) : F.Along Eq (Storage.read path : StateM σ _) :=
  along_of_eq fun _ hs => F.read hs path

theorem along_contains (path : String) :
    F.Along Eq (Task.contains path : Task α (StateM σ) Bool).run :=
  (along_of_eq fun _ hs => F.contains hs path).lift

theorem along_readText (path : String) : F.Along Eq (Storage.readText path : StateM σ _) := by
  refine (along_read path).bind fun s _ => ?_
  cases ((Storage.read path : StateM σ _).run s).1 with
  | error e => exact along_pure _
  | ok bytes =>
      dsimp only
      cases Text.decodeUtf8 bytes <;> exact along_pure _

theorem along_absolutePath (path : String) :
    F.Along Eq (Outputs.absolutePath path : Task α (StateM σ) String).run := by
  rw [Outputs.absolutePath]
  split
  · exact along_pure _
  · have hlook : F.Along Eq (Storage.workingDirectory : StateM σ _) :=
      along_of_eq fun _ hs => F.workingDirectory hs
    exact (hlook.step _).task_bind fun _ _ _ _ => along_pure _

theorem place_of_absolutePath {s : σ} (hs : F.Holds s) {path found : String}
    (h : ((Outputs.absolutePath path : Task α (StateM σ) String).run.run s).1 = .ok found) :
    F.place found = absolutePlace F path := by
  rw [Outputs.absolutePath] at h
  rw [absolutePlace]
  split at h
  · rename_i habsolute
    cases h
    rw [if_pos habsolute]
  · rename_i hrelative
    rw [if_neg hrelative]
    have hrun : (Storage.workingDirectory : StateM σ _).run s =
        (((Storage.workingDirectory : StateM σ _).run s).1, s) :=
      Prod.ext rfl (F.workingDirectory hs)
    cases hbase : ((Storage.workingDirectory : StateM σ _).run s).1 with
    | error e =>
        rw [hbase] at hrun
        rw [Task.run_bind_of_error (Task.run_step_of_error hrun)] at h
        cases h
    | ok base =>
        rw [hbase] at hrun
        rw [Task.run_bind_of_ok (Task.run_step_of_ok hrun)] at h
        cases h
        rw [F.eq_current hs hbase]

variable [Scalar α] [ScalarText α]

theorem along_get (cache : ScoreCache) (key : String) :
    F.Along Eq (cache.get key : Task α (StateM σ) (Option (Scores α))).run := by
  refine (along_contains _).task_bind fun _ found _ _ => ?_
  cases found with
  | false => exact along_pure _
  | true => exact ((along_readText _).step _).task_bind fun _ _ _ _ => along_pure _

theorem along_keptScores (cache : Option ScoreCache) (key : String) :
    F.Along Eq (keptScores cache key : StateM σ (Option (Scores α))) := by
  cases cache with
  | none => exact along_pure _
  | some cache => exact (along_get cache key).attempt.bind fun _ _ => along_pure _

/-- **Up to its analysis a run only looks.** -/
theorem along_findAnalysis (input : String) (settings : Settings α) (cache : Option ScoreCache) :
    F.Along Eq (findAnalysis input settings cache : Task α (StateM σ) _).run := by
  refine (along_ofResult _).task_bind fun _ _ _ _ => ?_
  refine ((along_read input).step _).task_bind fun _ bytes _ _ => ?_
  refine (along_ofResult _).task_bind fun _ loaded _ _ => ?_
  refine (along_keptScores cache _).lift.task_bind fun _ kept _ _ => ?_
  exact (along_ofResult _).task_bind fun _ _ _ _ => along_pure _

/-! ### Programs that write -/

theorem along_makeDirectories (places : Set F.Place) (path : String) :
    F.Along (F.SameOutside places) (Storage.makeDirectories path : StateM σ _) :=
  fun _ hs => ⟨(F.makeDirectories hs path).1, fun p _ => (F.makeDirectories hs path).2 p⟩

theorem along_write (path : String) (contents : ByteArray) :
    F.Along (F.SameOutside {F.place path}) (Storage.write path contents : StateM σ _) :=
  fun _ hs => ⟨(F.write hs path contents).1, (F.write hs path contents).2⟩

theorem along_removeFile (path : String) :
    F.Along (F.SameOutside {F.place path}) (Storage.removeFile path : StateM σ _) :=
  fun _ hs => ⟨(F.removeFile hs path).1, (F.removeFile hs path).2⟩

/-- Saving changes at most the entry for the key. -/
theorem along_save (cache : ScoreCache) (key : String) (scores : Scores α) :
    F.Along (F.SameOutside {F.place (cache.path key)})
      (cache.save key scores : Task α (StateM σ) Unit).run := by
  have hwrite := (along_write (F := F) (cache.path key) scores.document.compact.toUTF8).step
    (α := α) (.writeCache (cache.path key))
  refine (along_contains _).of_eq.task_bind fun _ found _ _ => ?_
  cases found with
  | true => exact hwrite
  | false => exact ((along_makeDirectories _ _).step _).task_bind fun _ _ _ _ => hwrite

omit [Scalar α] [ScalarText α] in
/-- Clearing changes at most the entry for the key. -/
theorem along_clear (cache : ScoreCache) (key : String) :
    F.Along (F.SameOutside {F.place (cache.path key)})
      (cache.clear key : Task α (StateM σ) Unit).run := by
  refine (along_contains _).of_eq.task_bind fun _ found _ _ => ?_
  cases found with
  | true => exact (along_removeFile _).step _
  | false => exact along_pure _

/-- Keeping changes at most the entry for the key, and only if the scores are new. -/
theorem along_keepScores (cache : Option ScoreCache) (key : String) (analysis : Analysis α) :
    F.Along (F.SameOutside (entryPlaces F cache key analysis))
      (keepScores cache key analysis : StateM σ Unit) := by
  cases cache with
  | none => exact along_pure _
  | some cache =>
      cases hcached : analysis.report.fromCache with
      | true =>
          rw [keepScores, hcached]
          exact along_pure _
      | false =>
          rw [keepScores, hcached]
          refine ((along_save cache key analysis.scores).attempt.bind fun _ _ => along_pure _).mono ?_
          refine fun s t hst p hp => hst p ?_
          rintro rfl
          exact hp ⟨hcached, cache, rfl, rfl⟩

omit [Scalar α] [ScalarText α] in
/-- Writing a file of a run changes at most this file. -/
theorem along_writeFile (path contents : String) :
    F.Along (F.SameOutside {absolutePlace F path})
      (Outputs.writeFile path contents : Task α (StateM σ) String).run := by
  rw [Outputs.writeFile]
  refine (along_absolutePath path).of_eq.task_bind fun s target hs htarget => ?_
  rw [← place_of_absolutePath hs htarget]
  have hwrite : F.Along (F.SameOutside {F.place target})
      (Task.perform (.createFile target) (Storage.write target contents.toUTF8) >>= fun _ =>
        pure target : Task α (StateM σ) String).run :=
    ((along_write _ _).perform _).task_bind fun _ _ _ _ => along_pure _
  cases Path.parent? target with
  | none => exact hwrite
  | some parent =>
      refine (along_contains parent).of_eq.task_bind fun _ found _ _ => ?_
      cases found with
      | true => exact hwrite
      | false => exact ((along_makeDirectories _ _).step _).task_bind fun _ _ _ _ => hwrite

/-- Writing the files of a run changes at most these files. -/
theorem along_saveOutputs (analysis : Analysis α) (directory : String) :
    F.Along (F.SameOutside (outputPlaces F (some directory) analysis))
      (Outputs.save analysis directory : Task α (StateM σ) (List String)).run := by
  rw [Outputs.save]
  refine along_mapM fun file hfile => (along_writeFile _ _).mono fun s t hst p hp => hst p ?_
  rintro rfl
  exact hp ⟨directory, rfl, file, hfile, rfl⟩

/-- **From its analysis on a run changes** at most the entry for its key and the files that it is
asked to write. -/
theorem along_keepAnalysis (cache : Option ScoreCache) (output : Option String) (key : String)
    (analysis : Analysis α) :
    F.Along (F.SameOutside (entryPlaces F cache key analysis ∪ outputPlaces F output analysis))
      (keepAnalysis cache output key analysis : Task α (StateM σ) _).run := by
  have hkeep := (along_keepScores (F := F) cache key analysis).mono
    (S := F.SameOutside (entryPlaces F cache key analysis ∪ outputPlaces F output analysis))
    fun _ _ hst p hp => hst p fun hentry => hp (.inl hentry)
  refine hkeep.lift.task_bind fun _ _ _ _ => ?_
  cases output with
  | none => exact along_pure _
  | some directory =>
      have hsave := (along_saveOutputs (F := F) analysis directory).mono
        (S := F.SameOutside (entryPlaces F cache key analysis ∪
          outputPlaces F (some directory) analysis))
        fun _ _ hst p hp => hst p fun houtput => hp (.inr houtput)
      exact hsave.task_bind fun _ _ _ _ => along_pure _

end BlockAffinity.FileFrame

namespace BlockAffinity.Run

variable {α σ : Type} [Scalar α] [ScalarText α] [Storage (StateM σ)]

/-- What is kept and written is handed on. -/
theorem analysis_of_keepAnalysis {cache : Option ScoreCache} {output : Option String} {key : String}
    {analysis : Analysis α} {result : Analysis α × List String} {s : σ}
    (h : ((keepAnalysis cache output key analysis : Task α (StateM σ) _).run.run s).1 =
      .ok result) : result.1 = analysis := by
  unfold keepAnalysis at h
  rw [Task.run_bind_of_ok (Task.run_lift _)] at h
  cases output with
  | none =>
      cases h
      rfl
  | some directory =>
      dsimp only at h
      cases hsave : (Outputs.save analysis directory : Task α (StateM σ) _).run.run
        ((keepScores cache key analysis : StateM σ Unit).run s).2 with
      | mk outcome t =>
          cases outcome with
          | error failure =>
              rw [Task.run_bind_of_error hsave] at h
              cases h
          | ok paths =>
              rw [Task.run_bind_of_ok hsave] at h
              cases h
              rfl

omit [Scalar α] [ScalarText α] in
/-- Forgetting changes at most the entry for the key of its input. -/
theorem of_forgetScores_changed {F : FileFrame σ} {input : String} {settings : Settings α}
    {cache : ScoreCache} {s : σ} (hs : F.Holds s) {p : F.Place}
    (hp : F.file? ((forgetScores input settings cache : Task α (StateM σ) _).run.run s).2 p ≠
      F.file? s p) :
    ∃ bytes, ((Storage.read input : StateM σ _).run s).1 = .ok bytes ∧
      p = F.place (cache.path (ScoreCache.keyFor bytes settings)) := by
  rw [forgetScores] at hp
  have hread : (Storage.read input : StateM σ _).run s =
      (((Storage.read input : StateM σ _).run s).1, s) := Prod.ext rfl (F.read hs input)
  cases hresult : ((Storage.read input : StateM σ _).run s).1 with
  | error e =>
      rw [hresult] at hread
      rw [Task.run_bind_of_error (Task.run_step_of_error hread)] at hp
      exact absurd rfl hp
  | ok bytes =>
      rw [hresult] at hread
      rw [Task.run_bind_of_ok (Task.run_step_of_ok hread)] at hp
      exact ⟨bytes, rfl, (FileFrame.along_clear cache _).mem_of_changed hs hp⟩

/-- **A run that fails before it has its analysis leaves the storage as it was.** Any other run hands
this analysis on if it goes through, and changes at most the entry for its key, if the scores are new,
and the files that it is asked to write. Forgetting the scores of an input and clearing a key change at
most the one entry. -/
theorem analyzeFile_footprint (F : FileFrame σ) (input : String) (settings : Settings α)
    (cache : ScoreCache) (output : Option String) (s : σ) (hs : F.Holds s) :
    let found := ((findAnalysis input settings (some cache) : Task α (StateM σ) _).run.run s).1
    let done := (analyzeFile input settings (some cache) output : Task α (StateM σ) _).run.run s
    (∀ failure, found = .error failure → done = (.error failure, s)) ∧
    (∀ bytes analysis, found = .ok (bytes, analysis) →
      (∀ result, done.1 = .ok result → result.1 = analysis) ∧
      (analysis.report.fromCache = true → output = none → done = (.ok (analysis, []), s)) ∧
      ∀ p, F.file? done.2 p ≠ F.file? s p →
        (p = F.place (cache.path (ScoreCache.keyFor bytes settings)) ∧
          analysis.report.fromCache = false) ∨ p ∈ outputPlaces F output analysis) ∧
    (∀ p, F.file? ((forgetScores input settings cache : Task α (StateM σ) _).run.run s).2 p ≠
        F.file? s p →
      ∃ bytes, ((Storage.read input : StateM σ _).run s).1 = .ok bytes ∧
        p = F.place (cache.path (ScoreCache.keyFor bytes settings))) ∧
    ∀ key p, F.file? ((cache.clear key : Task α (StateM σ) _).run.run s).2 p ≠ F.file? s p →
      p = F.place (cache.path key) := by
  intro found done
  -- up to its analysis a run only looks
  have hfind : (findAnalysis input settings (some cache) : Task α (StateM σ) _).run.run s =
      (found, s) :=
    Prod.ext rfl (FileFrame.along_findAnalysis input settings (some cache) s hs).2.symm
  refine ⟨?_, ?_, ?_, ?_⟩
  · intro failure hfound
    rw [hfound] at hfind
    show (analyzeFile input settings (some cache) output : Task α (StateM σ) _).run.run s = _
    rw [analyzeFile_eq, Task.run_bind_of_error hfind]
  · intro bytes analysis hfound
    rw [hfound] at hfind
    have hdone : done = (keepAnalysis (some cache) output (ScoreCache.keyFor bytes settings)
        analysis : Task α (StateM σ) _).run.run s := by
      show (analyzeFile input settings (some cache) output : Task α (StateM σ) _).run.run s = _
      rw [analyzeFile_eq, Task.run_bind_of_ok hfind]
    rw [hdone]
    refine ⟨fun result => analysis_of_keepAnalysis, ?_, ?_⟩
    · rintro hcached rfl
      rw [keepAnalysis, keepScores, hcached]
      rfl
    · intro p hp
      rcases (FileFrame.along_keepAnalysis (some cache) output _ analysis).mem_of_changed hs hp with
        ⟨hnew, c, ⟨rfl⟩, hplace⟩ | houtput
      · exact .inl ⟨hplace, hnew⟩
      · exact .inr houtput
  · exact fun p hp => of_forgetScores_changed hs hp
  · exact fun key p hp => (FileFrame.along_clear cache key).mem_of_changed hs hp

/-- A run with an entry that has no values leaves the disk as it was, and one with an entry that is no
document leaves its input file alone. -/
theorem besideCache_footprint :
    let key := ScoreCache.keyFor oneBlock (Settings.standard : Settings Float)
    let spoiled := withEntry oneBlock key emptied.document.compact.toUTF8
    let unreadable := withEntry oneBlock key "none".toUTF8
    (analyzeFile "in.csv" Settings.standard (some ⟨"cache"⟩) none :
        Task Float (StateM Disk) _).run.run spoiled =
      (.error ⟨[.analyze "in.csv"], .fault (.invalidMatrix 0 0 .absent)⟩, spoiled) ∧
    ((analyzeFile "in.csv" Settings.standard (some ⟨"cache"⟩) none :
        Task Float (StateM Disk) _).run.run unreadable).2.contents? ["w", "in.csv"] =
      some oneBlock := by
  intro key spoiled unreadable
  have hfind (contents : ByteArray) :
      (findAnalysis "in.csv" Settings.standard (some ⟨"cache"⟩) :
          Task Float (StateM Disk) _).run.run (withEntry oneBlock key contents) =
        ((analyzeBytes Settings.standard "in.csv" oneBlock (FileMap.readEntry contents)).map
          fun analysis => (oneBlock, analysis), withEntry oneBlock key contents) := by
    have hs := holds_withEntry oneBlock key contents
    refine run_findAnalysis (besideCache.fileMap.read_input hs) ?_
    rw [besideCache.fileMap.run_keptScores hs (ScoreCache.isKey_keyFor ..), file?_oneEntry,
      Option.bind_some]
  obtain ⟨a, ha, hids⟩ := exists_analyzeBytes_oneBlock
  constructor
  · have hfound := hfind emptied.document.compact.toUTF8
    rw [analyzeBytes_of_spoils ha (spoils_emptied hids)] at hfound
    exact (analyzeFile_footprint (Disk.frame ["w"]) "in.csv" Settings.standard ⟨"cache"⟩ none spoiled
      rfl).1 _ (congrArg Prod.fst hfound)
  · have hfound := hfind "none".toUTF8
    have habsent : FileMap.readEntry (α := Float) "none".toUTF8 = none := by decide +kernel
    rw [habsent, ha] at hfound
    obtain ⟨-, -, hchanged⟩ := (analyzeFile_footprint (Disk.frame ["w"]) "in.csv" Settings.standard
      ⟨"cache"⟩ none unreadable rfl).2.1 _ _ (congrArg Prod.fst hfound)
    by_contra hmoved
    rcases hchanged ["w", "in.csv"] hmoved with ⟨hentry, -⟩ | ⟨_, hnone, -⟩
    · have hplace : Disk.placeOf ["w"] ((⟨"cache"⟩ : ScoreCache).path key) =
          ["w", "cache", key ++ ".json"] :=
        Disk.placeOf_of_leadsTo (besideCache.entry_leads (ScoreCache.isKey_keyFor ..))
      have hlengths := congrArg List.length (hentry.trans hplace)
      exact absurd hlengths (by simp)
    · cases hnone

end BlockAffinity.Run
