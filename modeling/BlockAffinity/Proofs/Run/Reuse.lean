import BlockAffinity.Proofs.Analysis.Kept
import BlockAffinity.Proofs.Ingest.Policies
import BlockAffinity.Proofs.Run.ScoreCache

/-!
# BlockAffinity.Proofs.Run.Reuse

**What one run keeps serves another.** Inputs and settings with the same key have the same profiles
and the same scores, whatever else their settings say. So what a run finds out with the scores that
another run with its key has kept is what it finds out by itself, and it says that its scores were
kept ones (`analyzeBytes_of_kept`).
-/

namespace BlockAffinity.Run

section

variable {α : Type} [Scalar α] [ScalarText α] {settings settings' : Settings α} {path : String}
  {bytes : ByteArray}

/-- What it takes to load profiles from bytes. -/
theorem exists_of_profilesOfBytes {loaded : Profiles α × Nat}
    (h : profilesOfBytes settings path bytes = .ok loaded) :
    ∃ text table, Text.decodeUtf8 bytes = .ok text ∧ Csv.readTable text = .ok table ∧
      Analysis.loadProfiles settings table = .ok loaded := by
  obtain ⟨text, htext, h⟩ := bind_eq_ok_iff.mp h
  obtain ⟨table, htable, h⟩ := bind_eq_ok_iff.mp h
  exact ⟨text, table, during_mapError_eq_ok_iff.mp htext, during_mapError_eq_ok_iff.mp htable,
    during_mapError_eq_ok_iff.mp h⟩

/-- The profiles in bytes are the same under all settings with one input kind and one choice about
the entropy filter. -/
theorem profiles_eq_of_profilesOfBytes {loaded loaded' : Profiles α × Nat}
    (hkind : settings'.inputKind = settings.inputKind)
    (hfilter : settings'.entropyFilter = settings.entropyFilter)
    (h : profilesOfBytes settings path bytes = .ok loaded)
    (h' : profilesOfBytes settings' path bytes = .ok loaded') : loaded'.1 = loaded.1 := by
  obtain ⟨text, table, htext, htable, hload⟩ := exists_of_profilesOfBytes h
  obtain ⟨text', table', htext', htable', hload'⟩ := exists_of_profilesOfBytes h'
  obtain rfl := Except.ok.inj (htext.symm.trans htext')
  obtain rfl := Except.ok.inj (htable.symm.trans htable')
  exact Analysis.profiles_eq_of_loadProfiles hkind hfilter hload hload'

/-- What it takes to analyse bytes. -/
theorem analyzeBytes_eq_ok_iff {kept : Option (Scores α)} {a : Analysis α} :
    analyzeBytes settings path bytes kept = .ok a ↔
      settings.validate = .ok () ∧ ∃ loaded found,
        profilesOfBytes settings path bytes = .ok loaded ∧
          Analysis.run settings loaded.1 loaded.2 kept = .ok found ∧
          a = { found with report := { found.report with input := some path } } := by
  constructor
  · intro h
    obtain ⟨⟨⟩, hvalid, h⟩ := bind_eq_ok_iff.mp h
    obtain ⟨loaded, hload, h⟩ := bind_eq_ok_iff.mp h
    obtain ⟨found, hfound, h⟩ := bind_eq_ok_iff.mp h
    exact ⟨mapError_eq_ok_iff.mp hvalid, loaded, found, hload,
      during_mapError_eq_ok_iff.mp hfound, (Except.ok.inj h).symm⟩
  · rintro ⟨hvalid, loaded, found, hload, hfound, rfl⟩
    exact bind_eq_ok_iff.mpr ⟨(), mapError_eq_ok_iff.mpr hvalid, bind_eq_ok_iff.mpr ⟨loaded, hload,
      bind_eq_ok_iff.mpr ⟨found, during_mapError_eq_ok_iff.mpr hfound, rfl⟩⟩⟩

omit [ScalarText α] in
/-- Profiles are analysed with their own scores as without any. -/
theorem analyzeProfiles_of_kept {loaded : Profiles α × Nat} {scores : Scores α}
    (hscore : Analysis.score settings loaded.1 = .ok scores) :
    analyzeProfiles settings path loaded (some scores) =
      (analyzeProfiles settings path loaded none).map (Analysis.marked · true) := by
  rw [analyzeProfiles, analyzeProfiles, Analysis.run_of_kept hscore, during_mapError_map]
  cases during (.analyze path)
      ((Analysis.run settings loaded.1 loaded.2 none).mapError Cause.fault) with
  | error failure => rfl
  | ok found => rfl

/-- A run without kept scores says so. -/
theorem marked_of_analyzeBytes {a : Analysis α}
    (h : analyzeBytes settings path bytes none = .ok a) : a.marked false = a := by
  obtain ⟨-, loaded, found, -, hfound, rfl⟩ := analyzeBytes_eq_ok_iff.mp h
  obtain ⟨scores, fromCache, _, _, _, _, hchoice, -, -, -, rfl⟩ := Analysis.exists_of_run hfound
  obtain ⟨_, -, hfresh⟩ := exists_of_map_eq_ok hchoice
  cases hfresh
  rfl

end

/-- **What another run with the same key has kept** changes nothing but where the scores are said to
come from. -/
theorem analyzeBytes_of_kept {settings settings' : Settings Float} {path : String}
    {bytes bytes' : ByteArray} {a : Analysis Float}
    (hkey : Digest.chunkStream (ScoreCache.keyChunks bytes' settings') =
      Digest.chunkStream (ScoreCache.keyChunks bytes settings))
    (h : analyzeBytes settings' path bytes' none = .ok a) :
    a.scores.IsFinite ∧
      analyzeBytes settings path bytes (some a.scores) =
        (analyzeBytes settings path bytes none).map (Analysis.marked · true) := by
  obtain ⟨rfl, hmetric, hkind, hfilter⟩ := ScoreCache.of_chunkStream_keyChunks hkey
  obtain ⟨-, loaded', found, hload', hfound, rfl⟩ := analyzeBytes_eq_ok_iff.mp h
  obtain ⟨hscore, hfinite⟩ := Analysis.isFinite_of_run hfound
  refine ⟨hfinite, ?_⟩
  rw [analyzeBytes, analyzeBytes]
  cases settings.validate.mapError (Fault.failure (α := Float)) with
  | error failure => rfl
  | ok valid =>
      cases hload : profilesOfBytes settings path bytes' with
      | error failure => rfl
      | ok loaded =>
          have hprofiles := profiles_eq_of_profilesOfBytes hkind hfilter hload hload'
          rw [hprofiles, Analysis.score_congr hmetric] at hscore
          exact analyzeProfiles_of_kept hscore

end BlockAffinity.Run
