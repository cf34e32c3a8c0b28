import BlockAffinity.Proofs.Digest
import BlockAffinity.Proofs.Run.Files
import Mathlib.Logic.Function.Basic

/-!
# BlockAffinity.Proofs.Run.ScoreCache

**The cache over a storage that behaves as a map.** `FileMap` says what is asked of a storage: the
input file, the directory of the cache and its entries are independent of each other, and what is
called for succeeds. Over such a storage each operation of the cache does to the entries what its name
says (`run_keptScores` and so on), and nothing to the input file.

A key tells the input and the settings that scores depend on, as far as the hash does not collide
(`of_chunkStream_keyChunks`).
-/

namespace BlockAffinity

namespace ScoreCache

/-! ### Keys -/

variable {α : Type}

theorem length_metric_label (metric : Metric) : metric.label.toUTF8.toList.length < 2 ^ 60 := by
  cases metric <;> decide +kernel

theorem length_inputKind_label (kind : InputKind) : kind.label.toUTF8.toList.length < 2 ^ 60 := by
  cases kind <;> decide +kernel

theorem metric_of_label {metric metric' : Metric}
    (h : metric.label.toUTF8.toList = metric'.label.toUTF8.toList) : metric = metric' := by
  cases metric <;> cases metric' <;> revert h <;> decide +kernel

theorem inputKind_of_label {kind kind' : InputKind}
    (h : kind.label.toUTF8.toList = kind'.label.toUTF8.toList) : kind = kind' := by
  cases kind <;> cases kind' <;> revert h <;> decide +kernel

/-- **A key's stream tells what the scores depend on.** -/
theorem of_chunkStream_keyChunks {input input' : ByteArray} {settings settings' : Settings α}
    (h : Digest.chunkStream (keyChunks input settings) =
      Digest.chunkStream (keyChunks input' settings')) :
    input = input' ∧ settings.metric = settings'.metric ∧
      settings.inputKind = settings'.inputKind ∧
      settings.entropyFilter = settings'.entropyFilter := by
  have hm := length_metric_label settings.metric
  have hm' := length_metric_label settings'.metric
  have hk := length_inputKind_label settings.inputKind
  have hk' := length_inputKind_label settings'.inputKind
  have hlength := congrArg List.length h
  obtain ⟨hmod, hequal⟩ := Digest.of_chunkStream_cons h
  -- the streams are of one length and the labels are short, so the inputs are of one length
  have hinput : input.toList.length = input'.toList.length := by
    simp only [keyChunks, Digest.chunkStream_cons, Digest.chunkStream_nil, List.length_append,
      Digest.length_littleEndian, List.length_singleton, List.length_nil] at hlength
    omega
  obtain ⟨hinput, h⟩ := hequal hinput
  obtain ⟨hmod, hequal⟩ := Digest.of_chunkStream_cons h
  obtain ⟨hmetric, h⟩ := hequal (by omega)
  obtain ⟨hmod, hequal⟩ := Digest.of_chunkStream_cons h
  obtain ⟨hkind, h⟩ := hequal (by omega)
  obtain ⟨-, hequal⟩ := Digest.of_chunkStream_cons h
  obtain ⟨hfilter, -⟩ := hequal rfl
  refine ⟨Digest.toList_injective hinput, metric_of_label hmetric, inputKind_of_label hkind, ?_⟩
  revert hfilter
  cases settings.entropyFilter <;> cases settings'.entropyFilter <;> decide

/-- A text that keys have. -/
def IsKey (key : String) : Prop := ∃ chunks, key = Digest.digestHex chunks

theorem isKey_keyFor (input : ByteArray) (settings : Settings α) : IsKey (keyFor input settings) :=
  ⟨_, rfl⟩

end ScoreCache

/-! ### Storage as a map -/

/-- What a storage holds for runs on one input file with one cache. -/
structure Holdings where
  /-- The bytes of the input file. -/
  input : ByteArray
  /-- The files of the cache by key, if its directory is there. -/
  entries? : Option (String → Option ByteArray)

namespace Holdings

/-- The file for a key. -/
def file? (h : Holdings) (key : String) : Option ByteArray := h.entries?.bind (· key)

/-- The holdings with a file for a key, in a directory that is made if it is missing. -/
def place (h : Holdings) (key : String) (contents : ByteArray) : Holdings :=
  { h with entries? := some (Function.update (h.entries?.getD fun _ => none) key (some contents)) }

/-- The holdings without the file for a key. -/
def drop (h : Holdings) (key : String) : Holdings :=
  { h with entries? := h.entries?.map fun entries => Function.update entries key none }

/-- The holdings without the files of the cache; the directory stays. -/
def clear (h : Holdings) : Holdings := { h with entries? := h.entries?.map fun _ _ => none }

variable (h : Holdings) (key other : String) (contents : ByteArray)

theorem file?_place :
    (h.place key contents).file? other = if other = key then some contents else h.file? other := by
  rw [place, file?, Option.bind_some, Function.update_apply]
  split
  · rfl
  · cases hentries : h.entries? with
    | none => simp [file?, hentries]
    | some entries => simp [file?, hentries]

theorem file?_drop :
    (h.drop key).file? other = if other = key then none else h.file? other := by
  rw [drop, file?, file?]
  cases h.entries? with
  | none => simp
  | some entries => simp [Function.update_apply]

theorem file?_of_file?_drop {contents : ByteArray}
    (hfound : (h.drop key).file? other = some contents) : h.file? other = some contents := by
  rw [file?_drop] at hfound
  split at hfound
  · cases hfound
  · exact hfound

@[simp] theorem file?_clear : h.clear.file? other = none := by
  rw [clear, file?]
  cases h.entries? with
  | none => rfl
  | some entries => rfl

/-- Dropping the file for a key that has none changes nothing. -/
theorem drop_eq_self (hnone : h.file? key = none) : h.drop key = h := by
  obtain ⟨input, entries?⟩ := h
  cases entries? with
  | none => rfl
  | some entries =>
      rw [drop, Option.map_some, Function.update_eq_self_iff.mpr hnone.symm]

end Holdings

/-- A storage that behaves as a map from paths to contents, as far as an input file and a cache are
concerned: it holds what was put there last, and what is called for succeeds. -/
structure FileMap (σ : Type) [Storage (StateM σ)] (input : String) (cache : ScoreCache) where
  /-- What a state of the storage holds. -/
  Holds : σ → Holdings → Prop
  read_input {s : σ} {h : Holdings} (hs : Holds s h) :
    (Storage.read input : StateM σ _).run s = (.ok h.input, s)
  write_input {s : σ} {h : Holdings} (hs : Holds s h) (bytes : ByteArray) :
    ∃ t, (Storage.write input bytes : StateM σ _).run s = (.ok (), t) ∧
      Holds t { h with input := bytes }
  contains_directory {s : σ} {h : Holdings} (hs : Holds s h) :
    (Storage.contains cache.directory : StateM σ _).run s = (h.entries?.isSome, s)
  make_directory {s : σ} {bytes : ByteArray} (hs : Holds s ⟨bytes, none⟩) :
    ∃ t, (Storage.makeDirectories cache.directory : StateM σ _).run s = (.ok (), t) ∧
      Holds t ⟨bytes, some fun _ => none⟩
  remove_directory {s : σ} {bytes : ByteArray} {entries : String → Option ByteArray}
    (hs : Holds s ⟨bytes, some entries⟩) :
    ∃ t, (Storage.removeTree cache.directory : StateM σ _).run s = (.ok (), t) ∧
      Holds t ⟨bytes, none⟩
  contains_entry {s : σ} {h : Holdings} (hs : Holds s h) {key : String}
    (hkey : ScoreCache.IsKey key) :
    (Storage.contains (cache.path key) : StateM σ _).run s = ((h.file? key).isSome, s)
  read_entry {s : σ} {h : Holdings} (hs : Holds s h) {key : String} (hkey : ScoreCache.IsKey key)
    {contents : ByteArray} (hentry : h.file? key = some contents) :
    (Storage.read (cache.path key) : StateM σ _).run s = (.ok contents, s)
  write_entry {s : σ} {bytes : ByteArray} {entries : String → Option ByteArray}
    (hs : Holds s ⟨bytes, some entries⟩) {key : String} (hkey : ScoreCache.IsKey key)
    (contents : ByteArray) :
    ∃ t, (Storage.write (cache.path key) contents : StateM σ _).run s = (.ok (), t) ∧
      Holds t ⟨bytes, some (Function.update entries key (some contents))⟩
  remove_entry {s : σ} {bytes : ByteArray} {entries : String → Option ByteArray}
    (hs : Holds s ⟨bytes, some entries⟩) {key : String} (hkey : ScoreCache.IsKey key)
    (hentry : (entries key).isSome) :
    ∃ t, (Storage.removeFile (cache.path key) : StateM σ _).run s = (.ok (), t) ∧
      Holds t ⟨bytes, some (Function.update entries key none)⟩

namespace FileMap

variable {α σ : Type} [Storage (StateM σ)] {input : String} {cache : ScoreCache}
  (files : FileMap σ input cache) {s : σ} {h : Holdings} {key : String}

/-! ### The operations of the cache -/

/-- What the contents of an entry are read as. -/
def readEntry [Scalar α] [ScalarText α] (contents : ByteArray) : Option (Scores α) :=
  (Text.decodeUtf8 contents).toOption.bind fun text =>
    (Json.readDocument? text).bind Scores.ofDocument?

/-- **Saving** puts the scores in the place for the key. -/
theorem run_save [Scalar α] [ScalarText α] (hs : files.Holds s h) (hkey : ScoreCache.IsKey key)
    (scores : Scores α) :
    ∃ t, (cache.save key scores : Task α (StateM σ) Unit).run.run s = (.ok (), t) ∧
      files.Holds t (h.place key scores.document.compact.toUTF8) := by
  obtain ⟨bytes, entries?⟩ := h
  rw [ScoreCache.save, Task.run_bind_of_ok (Task.run_contains (files.contains_directory hs))]
  cases entries? with
  | some entries =>
      obtain ⟨t, hwrite, ht⟩ := files.write_entry hs hkey scores.document.compact.toUTF8
      exact ⟨t, Task.run_step_of_ok hwrite, ht⟩
  | none =>
      obtain ⟨t, hmake, ht⟩ := files.make_directory hs
      obtain ⟨u, hwrite, hu⟩ := files.write_entry ht hkey scores.document.compact.toUTF8
      refine ⟨u, ?_, hu⟩
      exact (Task.run_bind_of_ok (Task.run_step_of_ok hmake)).trans (Task.run_step_of_ok hwrite)

/-- **Clearing** a key leaves nothing in its place. -/
theorem run_clear (hs : files.Holds s h) (hkey : ScoreCache.IsKey key) :
    ∃ t, (cache.clear key : Task α (StateM σ) Unit).run.run s = (.ok (), t) ∧
      files.Holds t (h.drop key) := by
  rw [ScoreCache.clear, Task.run_bind_of_ok (Task.run_contains (files.contains_entry hs hkey))]
  cases hentry : h.file? key with
  | none => exact ⟨s, rfl, (h.drop_eq_self key hentry).symm ▸ hs⟩
  | some contents =>
      obtain ⟨bytes, entries?⟩ := h
      cases entries? with
      | none => simp [Holdings.file?] at hentry
      | some entries =>
          have hthere : (entries key).isSome := by
            rw [show entries key = some contents from hentry]
            rfl
          obtain ⟨t, hremove, ht⟩ := files.remove_entry hs hkey hthere
          exact ⟨t, Task.run_step_of_ok hremove, ht⟩

/-- **Forgetting** clears the key of the input file. -/
theorem run_forgetScores (hs : files.Holds s h) (settings : Settings α) :
    ∃ t, (Run.forgetScores input settings cache : Task α (StateM σ) Unit).run.run s = (.ok (), t) ∧
      files.Holds t (h.drop (ScoreCache.keyFor h.input settings)) := by
  rw [Run.forgetScores, Task.run_bind_of_ok (Task.run_step_of_ok (files.read_input hs))]
  exact files.run_clear hs (ScoreCache.isKey_keyFor h.input settings)

/-- **Clearing everything** leaves an empty directory, if there was one. -/
theorem run_clearAll (hs : files.Holds s h) :
    ∃ t, (cache.clearAll : Task α (StateM σ) Unit).run.run s = (.ok (), t) ∧
      files.Holds t h.clear := by
  obtain ⟨bytes, entries?⟩ := h
  rw [ScoreCache.clearAll, Task.run_bind_of_ok (Task.run_contains (files.contains_directory hs))]
  cases entries? with
  | none => exact ⟨s, rfl, hs⟩
  | some entries =>
      obtain ⟨t, hremove, ht⟩ := files.remove_directory hs
      obtain ⟨u, hmake, hu⟩ := files.make_directory ht
      refine ⟨u, ?_, hu⟩
      exact (Task.run_bind_of_ok (Task.run_step_of_ok hremove)).trans (Task.run_step_of_ok hmake)

/-- **Looking up** a key reads the file for it and changes nothing. -/
theorem run_keptScores [Scalar α] [ScalarText α] (hs : files.Holds s h)
    (hkey : ScoreCache.IsKey key) :
    (Run.keptScores (some cache) key : StateM σ (Option (Scores α))).run s =
      ((h.file? key).bind readEntry, s) := by
  have hget : ∃ found, (cache.get key : Task α (StateM σ) (Option (Scores α))).attempt.run s =
      (found, s) ∧ found.join = (h.file? key).bind readEntry := by
    have hcontains := Task.run_contains (α := α) (files.contains_entry hs hkey)
    cases hentry : h.file? key with
    | none =>
        rw [hentry] at hcontains
        refine ⟨some none, Task.run_attempt_of_ok ?_, rfl⟩
        rw [ScoreCache.get, Task.run_bind_of_ok hcontains]
        rfl
    | some contents =>
        rw [hentry] at hcontains
        have htext := Task.run_readText (files.read_entry hs hkey hentry)
        cases hdecode : Text.decodeUtf8 contents with
        | error fault =>
            rw [hdecode] at htext
            have hfailed : (cache.get key : Task α (StateM σ) (Option (Scores α))).run.run s =
                (.error ⟨[.readCache (cache.path key)], .file .notText⟩, s) := by
              rw [ScoreCache.get, Task.run_bind_of_ok hcontains]
              exact Task.run_bind_of_error (Task.run_step_of_error htext)
            refine ⟨none, Task.run_attempt_of_error hfailed, ?_⟩
            rw [Option.bind_some, readEntry, hdecode]
            rfl
        | ok text =>
            rw [hdecode] at htext
            refine ⟨some (readEntry contents), Task.run_attempt_of_ok ?_, rfl⟩
            rw [ScoreCache.get, Task.run_bind_of_ok hcontains]
            refine (Task.run_bind_of_ok (Task.run_step_of_ok htext)).trans ?_
            rw [readEntry, hdecode]
            rfl
  obtain ⟨found, hget, hfound⟩ := hget
  rw [Run.keptScores, StateT.run_bind, hget, ← hfound]
  rfl

/-- **Keeping** puts new scores in the place for the key, and leaves kept ones where they are. -/
theorem run_keepScores [Scalar α] [ScalarText α] (hs : files.Holds s h)
    (hkey : ScoreCache.IsKey key) (analysis : Analysis α) :
    files.Holds ((Run.keepScores (some cache) key analysis : StateM σ Unit).run s).2
      (if analysis.report.fromCache then h
        else h.place key analysis.scores.document.compact.toUTF8) := by
  cases hcached : analysis.report.fromCache with
  | true =>
      rw [Run.keepScores, hcached]
      exact hs
  | false =>
      obtain ⟨t, hsave, ht⟩ := files.run_save hs hkey analysis.scores
      have hkept : (Run.keepScores (some cache) key analysis : StateM σ Unit).run s = ((), t) := by
        rw [Run.keepScores, hcached]
        show StateT.run (Task.attempt (cache.save key analysis.scores : Task α (StateM σ) Unit) >>=
          fun _ => pure ()) s = _
        rw [StateT.run_bind, Task.run_attempt_of_ok hsave]
        rfl
      rw [hkept]
      exact ht

end FileMap

end BlockAffinity
