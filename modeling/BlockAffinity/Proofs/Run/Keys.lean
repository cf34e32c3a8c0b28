import BlockAffinity.Proofs.Ingest.Tables
import BlockAffinity.Proofs.Run.ScoreCache
import BlockAffinity.Proofs.ScoreMatrix.Order

/-!
# BlockAffinity.Proofs.Run.Keys

**A key tells neither too little nor too much.** Two runs have one key stream exactly if they agree
in the bytes of the input, the metric, the input kind and the entropy filter. What they do not have to
agree in (linkage, thresholds, policy, threads, use of the cache) changes neither the profiles of a
table nor their scores, in whatever order the pairs are scored (`chunkStream_keyChunks_exact`).
-/

namespace BlockAffinity.ScoreCache

variable {α : Type}

/-- The key stream says no more than what the scores depend on. -/
theorem keyChunks_congr {settings settings' : Settings α} (hmetric : settings.metric = settings'.metric)
    (hkind : settings.inputKind = settings'.inputKind)
    (hfilter : settings.entropyFilter = settings'.entropyFilter) (input : ByteArray) :
    keyChunks input settings = keyChunks input settings' := by
  rw [keyChunks, keyChunks, hmetric, hkind, hfilter]

/-- **Keys are exact.** The streams that are hashed are the same exactly if the inputs and the settings
that scores depend on are; no other lists of byte strings share a stream either. Tables that load under
two settings with one key have the same profiles and the same scores, and workers that share out the
pairs in some order find these scores too. -/
theorem chunkStream_keyChunks_exact [Scalar α] [ScalarText α] (settings settings' : Settings α) :
    (∀ input input' : ByteArray,
      Digest.chunkStream (keyChunks input settings) =
          Digest.chunkStream (keyChunks input' settings') ↔
        input = input' ∧ settings.metric = settings'.metric ∧
          settings.inputKind = settings'.inputKind ∧
          settings.entropyFilter = settings'.entropyFilter) ∧
    (∀ chunks chunks' : List (List UInt8), (∀ chunk ∈ chunks, chunk.length < 2 ^ 64) →
      (∀ chunk ∈ chunks', chunk.length < 2 ^ 64) →
      Digest.chunkStream chunks = Digest.chunkStream chunks' → chunks = chunks') ∧
    (settings.metric = settings'.metric → settings.inputKind = settings'.inputKind →
      settings.entropyFilter = settings'.entropyFilter → ∀ table loaded loaded',
      Analysis.loadProfiles settings table = .ok loaded →
      Analysis.loadProfiles settings' table = .ok loaded' →
        loaded.1 = loaded'.1 ∧
        Analysis.score settings loaded.1 = Analysis.score settings' loaded'.1 ∧
        ∀ order, order.Perm (pairIndices loaded.1.size) →
          Analysis.scoreInOrder order settings loaded.1 = Analysis.score settings' loaded'.1) := by
  refine ⟨fun input input' => ⟨of_chunkStream_keyChunks, ?_⟩,
    fun chunks chunks' hchunks hchunks' h => Digest.chunkStream_inj hchunks hchunks' h, ?_⟩
  · rintro ⟨rfl, hmetric, hkind, hfilter⟩
    rw [keyChunks_congr hmetric hkind hfilter]
  · intro hmetric hkind hfilter table loaded loaded' hload hload'
    have hprofiles := Analysis.profiles_eq_of_loadProfiles hkind hfilter hload' hload
    have hscore : Analysis.score settings loaded.1 = Analysis.score settings' loaded'.1 := by
      rw [hprofiles, Analysis.score_congr hmetric]
    refine ⟨hprofiles, hscore, fun order horder => ?_⟩
    rw [Analysis.scoreInOrder_eq_score settings horder, hscore]

/-- Settings that differ in everything else share keys and scores, with the pairs taken from the last
to the first, and the place of a cut between two byte strings is told. -/
theorem chunkStream_keyChunks_threeBlocks :
    let settings : Settings Float := .standard
    let other : Settings Float :=
      { settings with
        linkage := .ward, threshold := none, malformed := .abort, parallel := false,
        useCache := false, sweep := [1] }
    let observations : List Observation := [⟨⟨"a"⟩, .instruction, "mov"⟩,
      ⟨⟨"b"⟩, .instruction, "mov"⟩, ⟨⟨"c"⟩, .leftOperand, "[eax, 4]"⟩]
    let table : Csv.Table :=
      ⟨Ingest.observationHeader, observations.map fun o => ⟨2, Ingest.observationFields o⟩⟩
    let profiles : Profiles Float := Ingest.profilesOf observations
    keyFor ByteArray.empty settings = keyFor ByteArray.empty other ∧
    Digest.chunkStream [[97, 98], [99]] ≠ Digest.chunkStream [[97], [98, 99]] ∧
    Analysis.loadProfiles settings table = .ok (profiles, 0) ∧
    Analysis.loadProfiles other table = .ok (profiles, 0) ∧ profiles.size = 3 ∧
    Analysis.scoreInOrder [(1, 2), (0, 2), (0, 1)] settings profiles =
      Analysis.score other profiles := by
  intro settings other observations table profiles
  have htrimmed : ∀ o ∈ observations, o.IsTrimmed := by decide +kernel
  have hloaded : Analysis.loadProfiles settings table = .ok (profiles, 0) :=
    Ingest.loadProfiles_of_observationTable rfl htrimmed rfl
  have hloaded' : Analysis.loadProfiles other table = .ok (profiles, 0) :=
    Ingest.loadProfiles_of_observationTable rfl htrimmed rfl
  have hsize : profiles.size = 3 := by decide +kernel
  obtain ⟨hstream, hchunks, hload⟩ := chunkStream_keyChunks_exact settings other
  have hkey := (hstream ByteArray.empty ByteArray.empty).mpr ⟨rfl, rfl, rfl, rfl⟩
  obtain ⟨-, -, horder⟩ := hload rfl rfl rfl table _ _ hloaded hloaded'
  refine ⟨congrArg (fun bytes => (Digest.sha256 bytes).hex) hkey, fun h => ?_, hloaded, hloaded',
    hsize, horder _ ?_⟩
  · exact absurd (hchunks _ _ (by decide) (by decide) h) (by decide)
  · rw [hsize]
    decide

end BlockAffinity.ScoreCache
