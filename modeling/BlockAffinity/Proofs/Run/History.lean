import BlockAffinity.Proofs.Run.Reuse
import BlockAffinity.Proofs.Storage.FileMap

/-!
# BlockAffinity.Proofs.Run.History

**A cache does not show.** In the course of any history of runs, replaced inputs and cleared entries,
over a storage that behaves as a map, a run with the cache gives what the same run would give without
one, and it says that its scores were kept ones exactly if the last action that concerns its key is
an analysis (`analyzeFile_after_history`).

The layers of the argument:

* a run on an entry that another run with its key has left (`run_analyzeFile_cached`);
* what an action does to the holdings, and so to a storage that has them (`holds_perform`);
* `Mirrors`, which says of the holdings what a history makes of them: one action keeps it
  (`Mirrors.step`), and so does a history (`exists_mirrors`).
-/

namespace BlockAffinity.Run

variable {σ : Type} [Storage (StateM σ)] {input : String} {cache : ScoreCache}

/-! ### Histories -/

/-- Something that is done to an input file or to the cache. -/
inductive Action (α : Type)
  /-- The input file gets other bytes. -/
  | replaceInput (bytes : ByteArray)
  /-- The input file is analysed with the cache. -/
  | analyze (settings : Settings α)
  /-- What is kept for the input file is dropped. -/
  | forget (settings : Settings α)
  /-- What is kept for some input is dropped. -/
  | clear (bytes : ByteArray) (settings : Settings α)
  | clearAll

namespace Action

variable {α : Type} [Scalar α] [ScalarText α]

/-- Performs an action, whatever comes of it. -/
def perform (input : String) (cache : ScoreCache) : Action α → StateM σ Unit
  | .replaceInput bytes => do let _ ← Storage.write input bytes
  | .analyze settings => do
      let _ ← (analyzeFile input settings (some cache) none : Task α (StateM σ) _).run
  | .forget settings => do let _ ← (forgetScores input settings cache : Task α (StateM σ) Unit).run
  | .clear bytes settings => do
      let _ ← (cache.clear (ScoreCache.keyFor bytes settings) : Task α (StateM σ) Unit).run
  | .clearAll => do let _ ← (cache.clearAll : Task α (StateM σ) Unit).run

/-- The bytes of the input file after an action. -/
def inputAfter (bytes : ByteArray) : Action α → ByteArray
  | .replaceInput replaced => replaced
  | _ => bytes

/-- The byte strings whose stream is hashed for the key of an action, where `bytes` are those of the
input file. -/
def hashed? (bytes : ByteArray) : Action α → Option (List (List UInt8))
  | .analyze settings | .forget settings => some (ScoreCache.keyChunks bytes settings)
  | .clear other settings => some (ScoreCache.keyChunks other settings)
  | .replaceInput _ | .clearAll => none

/-- The input and the settings that are analysed. -/
def analyzed? (bytes : ByteArray) : Action α → Option (ByteArray × Settings α)
  | .analyze settings => some (bytes, settings)
  | _ => none

/-- Whether an action that concerns a key leaves something in its place: an analysis that succeeds
does, anything else leaves nothing. -/
def keeps? (input key : String) (bytes : ByteArray) : Action α → Option Bool
  | .replaceInput _ => none
  | .analyze settings =>
      if ScoreCache.keyFor bytes settings = key ∧
          (analyzeBytes settings input bytes none).toOption.isSome then some true
      else none
  | .forget settings => if ScoreCache.keyFor bytes settings = key then some false else none
  | .clear other settings => if ScoreCache.keyFor other settings = key then some false else none
  | .clearAll => some false

end Action

section

variable {α β : Type} [Scalar α] [ScalarText α]

/-- The storage after a history. -/
def after (input : String) (cache : ScoreCache) (s : σ) (history : List (Action α)) : σ :=
  history.foldl (fun s action => ((action.perform input cache).run s).2) s

/-- The bytes of the input file after a history. -/
def inputAfter (bytes : ByteArray) (history : List (Action α)) : ByteArray :=
  history.foldl Action.inputAfter bytes

/-- What the actions of a history give, each with the bytes that the input file has at its time. -/
def gather (f : ByteArray → Action α → Option β) : ByteArray → List (Action α) → List β
  | _, [] => []
  | bytes, action :: later => (f bytes action).toList ++ gather f (action.inputAfter bytes) later

/-- Whether the last action that concerns a key is an analysis. -/
def lastKeeps (input key : String) (bytes : ByteArray) (history : List (Action α)) : Bool :=
  (gather (Action.keeps? input key) bytes history).getLast? == some true

omit [Scalar α] [ScalarText α] in
theorem gather_append (f : ByteArray → Action α → Option β) (bytes : ByteArray)
    (before later : List (Action α)) :
    gather f bytes (before ++ later) =
      gather f bytes before ++ gather f (inputAfter bytes before) later := by
  induction before generalizing bytes with
  | nil => rfl
  | cons action before ih => rw [List.cons_append, gather, gather, ih, List.append_assoc]; rfl

omit [Scalar α] [ScalarText α] in
theorem gather_concat (f : ByteArray → Action α → Option β) (bytes : ByteArray)
    (before : List (Action α)) (action : Action α) :
    gather f bytes (before ++ [action]) =
      gather f bytes before ++ (f (inputAfter bytes before) action).toList := by
  rw [gather_append, gather, gather, List.append_nil]

theorem lastKeeps_concat (key : String) (bytes : ByteArray) (before : List (Action α))
    (action : Action α) :
    lastKeeps input key bytes (before ++ [action]) =
      ((action.keeps? input key (inputAfter bytes before)).getD (lastKeeps input key bytes before)) := by
  rw [lastKeeps, gather_concat]
  cases action.keeps? input key (inputAfter bytes before) with
  | none => rw [Option.toList_none, List.append_nil]; rfl
  | some keeps => cases keeps <;> simp

end

/-! ### One action -/

/-- What an action makes of the holdings. -/
def Action.effect (input : String) (h : Holdings) : Action Float → Holdings
  | .replaceInput replaced => { h with input := replaced }
  | .analyze settings =>
      match analyzeBytes settings input h.input none with
      | .error _ => h
      | .ok a =>
          if (h.file? (ScoreCache.keyFor h.input settings)).isSome then h
          else h.place (ScoreCache.keyFor h.input settings) a.scores.document.compact.toUTF8
  | .forget settings => h.drop (ScoreCache.keyFor h.input settings)
  | .clear other settings => h.drop (ScoreCache.keyFor other settings)
  | .clearAll => h.clear

/-- The entry for the input file under some settings, if there is one, stands for its scores. -/
def IsUsable (input : String) (h : Holdings) (settings : Settings Float) : Prop :=
  ∀ contents, h.file? (ScoreCache.keyFor h.input settings) = some contents →
    analyzeBytes settings input h.input (FileMap.readEntry contents) =
      (analyzeBytes settings input h.input none).map (Analysis.marked · true)

variable {s : σ} {h : Holdings}

/-- **A run on an entry that stands for its scores** finds out what it would find out by itself, and
keeps new scores only. -/
theorem run_analyzeFile_cached (files : FileMap σ input cache) (hs : files.Holds s h)
    {settings : Settings Float} (husable : IsUsable input h settings) :
    ∃ t, (analyzeFile input settings (some cache) none : Task Float (StateM σ) _).run.run s =
        ((analyzeBytes settings input h.input none).map fun a =>
          (a.marked (h.file? (ScoreCache.keyFor h.input settings)).isSome, []), t) ∧
      files.Holds t ((Action.analyze settings).effect input h) := by
  have hkey := ScoreCache.isKey_keyFor h.input settings
  have hrun := run_analyzeFile (files.read_input hs) (files.run_keptScores (α := Float) hs hkey)
  rw [Action.effect]
  cases hthere : h.file? (ScoreCache.keyFor h.input settings) with
  | none =>
      rw [hthere, Option.bind_none] at hrun
      cases hfresh : analyzeBytes settings input h.input none with
      | error failure =>
          rw [hfresh] at hrun
          exact ⟨s, hrun, hs⟩
      | ok a =>
          rw [hfresh] at hrun
          have hmarked := marked_of_analyzeBytes hfresh
          have hfrom : a.report.fromCache = false := by
            rw [← hmarked]
            rfl
          have hheld := files.run_keepScores hs hkey a
          rw [hfrom] at hheld
          refine ⟨_, hrun.trans ?_, hheld⟩
          show (Except.ok (a, []), _) = (Except.ok (a.marked false, []), _)
          rw [hmarked]
  | some contents =>
      rw [hthere, Option.bind_some, husable contents hthere] at hrun
      cases hfresh : analyzeBytes settings input h.input none with
      | error failure =>
          rw [hfresh] at hrun
          exact ⟨s, hrun, hs⟩
      | ok a =>
          rw [hfresh] at hrun
          exact ⟨_, hrun, files.run_keepScores hs hkey (a.marked true)⟩

/-- **An action does to a storage** what it does to the holdings, as long as it meets no entry that
stands for other scores. -/
theorem holds_perform (files : FileMap σ input cache) (hs : files.Holds s h) (action : Action Float)
    (husable : ∀ settings, action = .analyze settings → IsUsable input h settings) :
    files.Holds ((action.perform input cache : StateM σ Unit).run s).2 (action.effect input h) := by
  cases action with
  | replaceInput replaced =>
      obtain ⟨t, hwrite, ht⟩ := files.write_input hs replaced
      have hstate : ((Action.perform input cache (.replaceInput replaced : Action Float) :
          StateM σ Unit).run s).2 = t := congrArg Prod.snd hwrite
      exact hstate ▸ ht
  | analyze settings =>
      obtain ⟨t, hrun, ht⟩ := run_analyzeFile_cached files hs (husable settings rfl)
      have hstate : ((Action.perform input cache (.analyze settings : Action Float) :
          StateM σ Unit).run s).2 = t := congrArg Prod.snd hrun
      exact hstate ▸ ht
  | forget settings =>
      obtain ⟨t, hforget, ht⟩ := files.run_forgetScores hs settings
      have hstate : ((Action.perform input cache (.forget settings : Action Float) :
          StateM σ Unit).run s).2 = t := congrArg Prod.snd hforget
      exact hstate ▸ ht
  | clear other settings =>
      obtain ⟨t, hclear, ht⟩ :=
        files.run_clear (α := Float) hs (ScoreCache.isKey_keyFor other settings)
      have hstate : ((Action.perform input cache (.clear other settings : Action Float) :
          StateM σ Unit).run s).2 = t := congrArg Prod.snd hclear
      exact hstate ▸ ht
  | clearAll =>
      obtain ⟨t, hclear, ht⟩ := files.run_clearAll (α := Float) hs
      have hstate : ((Action.perform input cache (.clearAll : Action Float) :
          StateM σ Unit).run s).2 = t := congrArg Prod.snd hclear
      exact hstate ▸ ht

/-! ### What is held after an action -/

variable (input) (action : Action Float) (key : String)

theorem input_effect : (action.effect input h).input = action.inputAfter h.input := by
  cases action with
  | analyze settings =>
      rw [Action.effect]
      split
      · rfl
      · split <;> rfl
  | _ => rfl

/-- Dropping is what an action does that keeps nothing for one key. -/
theorem isSome_file?_drop (dropped : String) :
    ((h.drop dropped).file? key).isSome =
      (if dropped = key then some false else none).getD (h.file? key).isSome := by
  rw [Holdings.file?_drop]
  by_cases hkey : dropped = key
  · rw [if_pos hkey, if_pos hkey.symm]
    rfl
  · rw [if_neg hkey, if_neg (Ne.symm hkey)]
    rfl

/-- There is an entry for a key where the action keeps one, or where it leaves one. -/
theorem isSome_file?_effect :
    ((action.effect input h).file? key).isSome =
      (action.keeps? input key h.input).getD (h.file? key).isSome := by
  cases action with
  | replaceInput replaced => rfl
  | analyze settings =>
      rw [Action.effect, Action.keeps?]
      by_cases hkey : ScoreCache.keyFor h.input settings = key
      · subst hkey
        cases analyzeBytes settings input h.input none with
        | error failure => simp [Except.toOption]
        | ok a =>
            by_cases hthere : (h.file? (ScoreCache.keyFor h.input settings)).isSome = true
            · simp [Except.toOption, hthere]
            · simp [Except.toOption, hthere, Holdings.file?_place]
      · rw [if_neg fun hboth => hkey hboth.1]
        cases analyzeBytes settings input h.input none with
        | error failure => rfl
        | ok a =>
            dsimp only
            split
            · rfl
            · rw [Holdings.file?_place, if_neg (Ne.symm hkey)]
              rfl
  | forget settings => exact isSome_file?_drop _ _
  | clear other settings => exact isSome_file?_drop _ _
  | clearAll => simp [Action.effect, Action.keeps?]

/-- An entry is left from before, or it is that of a successful analysis. -/
theorem file?_effect_cases {contents : ByteArray}
    (hfound : (action.effect input h).file? key = some contents) :
    h.file? key = some contents ∨
      ∃ settings a, action = .analyze settings ∧ ScoreCache.keyFor h.input settings = key ∧
        analyzeBytes settings input h.input none = .ok a ∧
          contents = a.scores.document.compact.toUTF8 := by
  cases action with
  | replaceInput replaced => exact .inl hfound
  | analyze settings =>
      rw [Action.effect] at hfound
      cases hfresh : analyzeBytes settings input h.input none with
      | error failure =>
          rw [hfresh] at hfound
          exact .inl hfound
      | ok a =>
          rw [hfresh] at hfound
          dsimp only at hfound
          split at hfound
          · exact .inl hfound
          · rw [Holdings.file?_place] at hfound
            split at hfound
            · rename_i hkey
              exact .inr ⟨settings, a, rfl, hkey.symm, hfresh, (Option.some.inj hfound).symm⟩
            · exact .inl hfound
  | forget settings => exact .inl (h.file?_of_file?_drop _ _ hfound)
  | clear other settings => exact .inl (h.file?_of_file?_drop _ _ hfound)
  | clearAll =>
      rw [Action.effect, Holdings.file?_clear] at hfound
      cases hfound

/-- What a history makes of the holdings: there is an entry for a key exactly if the last action that
concerns it is an analysis, and it holds the scores of some analysis of the history with this key. -/
structure Mirrors (input : String) (bytes : ByteArray) (history : List (Action Float))
    (h : Holdings) : Prop where
  input_eq : h.input = inputAfter bytes history
  kept (key : String) : (h.file? key).isSome = lastKeeps input key bytes history
  contents {key : String} {contents : ByteArray} (hentry : h.file? key = some contents) :
    ∃ analyzed ∈ gather Action.analyzed? bytes history,
      ScoreCache.keyFor analyzed.1 analyzed.2 = key ∧
        ∃ a, analyzeBytes analyzed.2 input analyzed.1 none = .ok a ∧
          contents = a.scores.document.compact.toUTF8

variable {input} {bytes : ByteArray} {before : List (Action Float)}

theorem mirrors_nil : Mirrors input bytes [] ⟨bytes, none⟩ where
  input_eq := rfl
  kept _ := rfl
  contents hentry := by simp [Holdings.file?] at hentry

/-- **One action** makes of the holdings what it makes of the history. -/
theorem Mirrors.step (hm : Mirrors input bytes before h) :
    Mirrors input bytes (before ++ [action]) (action.effect input h) where
  input_eq := by
    rw [input_effect, hm.input_eq, inputAfter, inputAfter, List.foldl_append]
    rfl
  kept key := by rw [lastKeeps_concat, isSome_file?_effect, hm.kept, hm.input_eq]
  contents {key contents} hfound := by
    rw [gather_concat, ← hm.input_eq]
    rcases file?_effect_cases input action key hfound with hleft | ⟨settings, a, rfl, hkey, ha, rfl⟩
    · obtain ⟨analyzed, hmem, hfacts⟩ := hm.contents hleft
      exact ⟨analyzed, List.mem_append_left _ hmem, hfacts⟩
    · have hmem : (h.input, settings) ∈
          ((Action.analyze settings).analyzed? h.input).toList := List.mem_singleton.mpr rfl
      exact ⟨(h.input, settings), List.mem_append_right _ hmem, hkey, a, ha, rfl⟩

/-! ### The whole history -/

/-- What is analysed in a history is hashed in it. -/
theorem keyChunks_mem_of_analyzed {bytes : ByteArray} {history : List (Action Float)}
    {analyzed : ByteArray × Settings Float}
    (h : analyzed ∈ gather Action.analyzed? bytes history) :
    ScoreCache.keyChunks analyzed.1 analyzed.2 ∈ gather Action.hashed? bytes history := by
  induction history generalizing bytes with
  | nil => exact absurd h List.not_mem_nil
  | cons action later ih =>
      rw [gather, List.mem_append] at h ⊢
      rcases h with h | h
      · refine .inl ?_
        cases action with
        | analyze settings =>
            obtain rfl := List.mem_singleton.mp h
            exact List.mem_singleton.mpr rfl
        | _ => simp [Action.analyzed?] at h
      · exact .inr (ih h)

/-- The scores can be read back from the document that they are written as. -/
def IsReadBack (scores : Scores Float) : Prop :=
  (Json.readDocument? scores.document.compact).bind Scores.ofDocument? = some scores

instance (scores : Scores Float) : Decidable (IsReadBack scores) :=
  inferInstanceAs (Decidable (_ = _))

theorem IsReadBack.readEntry_eq {scores : Scores Float} (h : IsReadBack scores) :
    FileMap.readEntry scores.document.compact.toUTF8 = some scores := by
  rw [FileMap.readEntry, Text.decodeUtf8_toUTF8, Except.toOption, Option.bind_some]
  exact h

variable {history later : List (Action Float)} {settings : Settings Float}

/-- **Entries of a history can be used** by its next analysis. -/
theorem Mirrors.isUsable (hm : Mirrors input bytes before h)
    (hfree : Digest.CollisionFree (gather Action.hashed? bytes history))
    (hread : ∀ analyzed ∈ gather Action.analyzed? bytes history, ∀ a,
      analyzeBytes analyzed.2 input analyzed.1 none = .ok a → a.scores.IsFinite →
        IsReadBack a.scores)
    (hhistory : history = before ++ .analyze settings :: later) : IsUsable input h settings := by
  intro contents hentry
  obtain ⟨analyzed, hmem, hkey, a, ha, rfl⟩ := hm.contents hentry
  rw [hhistory, gather_append] at hfree hread
  have hold := List.mem_append_left (gather Action.hashed? (inputAfter bytes before)
    (.analyze settings :: later)) (keyChunks_mem_of_analyzed hmem)
  have hnew : ScoreCache.keyChunks h.input settings ∈ gather Action.hashed? bytes before ++
      gather Action.hashed? (inputAfter bytes before) (.analyze settings :: later) := by
    rw [hm.input_eq]
    exact List.mem_append_right _ List.mem_cons_self
  obtain ⟨hfinite, hreused⟩ := analyzeBytes_of_kept (hfree.chunkStream_eq hold hnew hkey) ha
  rw [(hread analyzed (List.mem_append_left _ hmem) a ha hfinite).readEntry_eq, hreused]

/-- **A history** makes of the holdings what its actions make of them one by one. -/
theorem exists_mirrors (files : FileMap σ input cache) (hstart : files.Holds s ⟨bytes, none⟩)
    (hfree : Digest.CollisionFree (gather Action.hashed? bytes history))
    (hread : ∀ analyzed ∈ gather Action.analyzed? bytes history, ∀ a,
      analyzeBytes analyzed.2 input analyzed.1 none = .ok a → a.scores.IsFinite →
        IsReadBack a.scores)
    (hhistory : history = before ++ later) :
    ∃ h, files.Holds (after input cache s before) h ∧ Mirrors input bytes before h := by
  induction before using List.reverseRecOn generalizing later with
  | nil => exact ⟨_, hstart, mirrors_nil⟩
  | append_singleton before action ih =>
      rw [List.append_assoc, List.singleton_append] at hhistory
      obtain ⟨h, hs, hm⟩ := ih hhistory
      have hafter : after input cache s (before ++ [action]) =
          ((action.perform input cache : StateM σ Unit).run (after input cache s before)).2 := by
        rw [after, List.foldl_append]
        rfl
      rw [hafter]
      refine ⟨action.effect input h, holds_perform files hs action ?_, hm.step action⟩
      rintro settings rfl
      exact hm.isUsable hfree hread hhistory

/-- **The cache does not show.** In a history that starts without a directory of the cache, every run
with the cache gives what the run without it would give in its place, and an analysis says that its
scores were kept ones exactly if the last action before it that concerns its key is an analysis. -/
theorem analyzeFile_after_history (files : FileMap σ input cache)
    (hstart : files.Holds s ⟨bytes, none⟩)
    (hfree : Digest.CollisionFree (gather Action.hashed? bytes history))
    (hread : ∀ analyzed ∈ gather Action.analyzed? bytes history, ∀ a,
      analyzeBytes analyzed.2 input analyzed.1 none = .ok a → a.scores.IsFinite →
        IsReadBack a.scores)
    (hhistory : history = before ++ .analyze settings :: later) :
    let t := after input cache s before
    let key := ScoreCache.keyFor (inputAfter bytes before) settings
    ((analyzeFile input settings (some cache) none : Task Float (StateM σ) _).run.run t).1 =
      ((analyzeFile input settings none none : Task Float (StateM σ) _).run.run t).1.map
        fun result => (result.1.marked (lastKeeps input key bytes before), result.2) := by
  intro t key
  obtain ⟨h, hs, hm⟩ := exists_mirrors files hstart hfree hread hhistory
  obtain ⟨u, hcached, -⟩ := run_analyzeFile_cached files hs (hm.isUsable hfree hread hhistory)
  rw [hcached, run_analyzeFile_uncached (files.read_input hs), hm.kept, hm.input_eq]
  cases analyzeBytes settings input (inputAfter bytes before) none with
  | error failure => rfl
  | ok a => rfl

/-! ### A history on a disk -/

/-- The input file `in.csv` beside the cache in `cache`. -/
def besideCache : Disk.Layout ["w"] "in.csv" ⟨"cache"⟩ :=
  have hinput : Disk.IsName "in.csv" := ⟨⟨by decide, by decide, by decide⟩, by decide, by decide⟩
  have hcache : Disk.IsName "cache" := ⟨⟨by decide, by decide, by decide⟩, by decide, by decide⟩
  have hcurrent : Disk.IsPlain "w" := ⟨by decide, by decide, by decide⟩
  Disk.Layout.beside (by simpa using hcurrent) hinput hcache (by decide)

/-- A disk with an input file and no cache. -/
def uncached (bytes : ByteArray) : Disk :=
  ⟨["w"], .directory [("w", .directory [("in.csv", .file bytes)])]⟩

/-- A table of one block. -/
def oneBlock : ByteArray := "Block_ID,Type,Assembly\na,Instruction,mov\n".toUTF8

/-- One block is analysed, and its table is there again after what is kept for another input was
dropped. -/
def revisited : List (Action Float) :=
  [.analyze .standard, .replaceInput .empty, .forget .standard, .replaceInput oneBlock]

/-- Settings with the key of the standard ones. -/
def joinedByWard : Settings Float := { Settings.standard with linkage := .ward }

theorem lastKeeps_revisited
    (hok : (analyzeBytes (Settings.standard : Settings Float) "in.csv" oneBlock none).toOption.isSome)
    (hkey : ScoreCache.keyFor .empty (Settings.standard : Settings Float) ≠
      ScoreCache.keyFor oneBlock (Settings.standard : Settings Float)) :
    lastKeeps "in.csv" (ScoreCache.keyFor oneBlock joinedByWard) oneBlock revisited = true := by
  have hsame : ScoreCache.keyFor oneBlock joinedByWard =
      ScoreCache.keyFor oneBlock (Settings.standard : Settings Float) := rfl
  rw [hsame]
  simp [lastKeeps, revisited, gather, Action.keeps?, Action.inputAfter, hok, hkey]

/-- What was kept is used again with another linkage, as nothing was dropped for its key. -/
theorem analyzeFile_after_revisited :
    let history := revisited ++ [.analyze joinedByWard]
    let t := after "in.csv" ⟨"cache"⟩ (uncached oneBlock) revisited
    besideCache.fileMap.Holds (uncached oneBlock) ⟨oneBlock, none⟩ ∧
      Digest.CollisionFree (gather Action.hashed? oneBlock history) ∧
      (∀ analyzed ∈ gather Action.analyzed? oneBlock history, ∀ a,
        analyzeBytes analyzed.2 "in.csv" analyzed.1 none = .ok a → a.scores.IsFinite →
          IsReadBack a.scores) ∧
      ((analyzeFile "in.csv" joinedByWard (some ⟨"cache"⟩) none :
          Task Float (StateM Disk) _).run.run t).1 =
        ((analyzeFile "in.csv" joinedByWard none none :
          Task Float (StateM Disk) _).run.run t).1.map
            fun result => (result.1.marked true, result.2) := by
  intro history t
  have hstart : besideCache.fileMap.Holds (uncached oneBlock) ⟨oneBlock, none⟩ :=
    Disk.Layout.Holds.of_missing rfl rfl ⟨_, rfl⟩ rfl
  have hfree : Digest.CollisionFree (gather Action.hashed? oneBlock history) := by
    unfold Digest.CollisionFree
    decide +kernel
  have hevaluated : ∀ analyzed ∈ gather Action.analyzed? oneBlock history,
      (analyzeBytes analyzed.2 "in.csv" analyzed.1 none).toOption.any
        (fun a => decide (IsReadBack a.scores)) = true := by
    decide +kernel
  have hread : ∀ analyzed ∈ gather Action.analyzed? oneBlock history, ∀ a,
      analyzeBytes analyzed.2 "in.csv" analyzed.1 none = .ok a → a.scores.IsFinite →
        IsReadBack a.scores := by
    intro analyzed hmem a ha _
    have hback := hevaluated analyzed hmem
    rw [ha, Except.toOption, Option.any_some] at hback
    exact of_decide_eq_true hback
  have hok := Option.isSome_of_any (hevaluated (oneBlock, .standard) List.mem_cons_self)
  have hkey : ScoreCache.keyFor .empty (Settings.standard : Settings Float) ≠
      ScoreCache.keyFor oneBlock (Settings.standard : Settings Float) := by decide +kernel
  refine ⟨hstart, hfree, hread, ?_⟩
  rw [← lastKeeps_revisited hok hkey]
  exact analyzeFile_after_history besideCache.fileMap hstart hfree hread
    (rfl : history = revisited ++ .analyze joinedByWard :: [])

end BlockAffinity.Run
