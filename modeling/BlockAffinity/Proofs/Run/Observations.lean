import BlockAffinity.Proofs.Analysis.Totality
import BlockAffinity.Proofs.Ingest.Tables
import BlockAffinity.Proofs.Run.Files
import BlockAffinity.Proofs.Storage.Disk

/-!
# BlockAffinity.Proofs.Run.Observations

**Analysing a file of observations is analysing the observations.** Whatever characters blocks and
tokens have, their table is read back row by row, so the run on a file that holds it fails exactly if
the analysis in memory does, with the same fault, and otherwise finds out the same, the name of the
file apart (`analyzeFile_of_write_observationTable`).
-/

namespace BlockAffinity.Run

variable {α : Type} [Scalar α] [ScalarText α]

/-- The table of observations holds their profiles. -/
theorem profilesOfBytes_observationTable {settings : Settings α}
    (hkind : settings.inputKind = .occurrences) {observations : List Observation}
    (h : ∀ o ∈ observations, o.IsTrimmed) (path : String) :
    profilesOfBytes settings path (Ingest.observationTable observations).toUTF8 =
      .ok (Analysis.filtered settings (Ingest.profilesOf observations), 0) := by
  obtain ⟨records, htable, hrecords⟩ := Ingest.readTable_observationTable h
  refine bind_eq_ok_iff.mpr ⟨Ingest.observationTable observations, ?_,
    bind_eq_ok_iff.mpr ⟨⟨Ingest.observationHeader, records⟩, ?_, ?_⟩⟩
  · rw [Text.decodeUtf8_toUTF8]
    rfl
  · rw [htable]
    rfl
  · rw [Ingest.loadProfiles_of_observationTable hkind h hrecords]
    rfl

/-- **The table of observations is analysed as the observations are.** -/
theorem analyzeBytes_observationTable {settings : Settings α}
    (hkind : settings.inputKind = .occurrences) {observations : List Observation}
    (h : ∀ o ∈ observations, o.IsTrimmed) (path : String) :
    (∀ a, Analysis.ofObservations settings observations = .ok a →
      analyzeBytes settings path (Ingest.observationTable observations).toUTF8 none =
        .ok { a with report := { a.report with input := some path } }) ∧
    ∀ fault, Analysis.ofObservations settings observations = .error fault →
      ∃ during, analyzeBytes settings path (Ingest.observationTable observations).toUTF8 none =
        .error ⟨during, .fault fault⟩ := by
  rw [analyzeBytes, profilesOfBytes_observationTable hkind h, Analysis.ofObservations]
  cases settings.validate with
  | error refused =>
      refine ⟨fun a ha => ?_, fun fault hfault => ?_⟩
      · cases ha
      · cases hfault
        exact ⟨[], rfl⟩
  | ok valid =>
      refine ⟨fun a ha => ?_, fun fault hfault => ?_⟩
      · show analyzeProfiles settings path _ none = _
        rw [analyzeProfiles, show Analysis.run settings _ 0 none = _ from ha]
        rfl
      · refine ⟨[.analyze path], ?_⟩
        show analyzeProfiles settings path _ none = _
        rw [analyzeProfiles, show Analysis.run settings _ 0 none = _ from hfault]
        rfl

/-- **A run on a written table of observations** fails exactly if the analysis of the observations
does, and then with its fault; otherwise it finds out the same, the name of the file apart, and no row
is skipped. -/
theorem analyzeFile_of_write_observationTable (settings : Settings α)
    (hkind : settings.inputKind = .occurrences) (observations : List Observation)
    (htrimmed : ∀ o ∈ observations, o.IsTrimmed) (d d' : Disk) (path : String)
    (hwrite : d.write path (Ingest.observationTable observations).toUTF8 = .ok d') :
    (∀ a, Analysis.ofObservations settings observations = .ok a →
      a.report.skipped = 0 ∧
      (analyzeFile path settings none none : Task α (StateM Disk) _).run.run d' =
        (.ok ({ a with report := { a.report with input := some path } }, []), d')) ∧
    ∀ fault, Analysis.ofObservations settings observations = .error fault →
      ∃ during, (analyzeFile path settings none none : Task α (StateM Disk) _).run.run d' =
        (.error ⟨during, .fault fault⟩, d') := by
  have hread : (Storage.read path : StateM Disk _).run d' =
      (.ok (Ingest.observationTable observations).toUTF8, d') :=
    congrArg (fun contents => (contents, d')) (Disk.read_of_write hwrite)
  obtain ⟨hok, herror⟩ := analyzeBytes_observationTable hkind htrimmed path
  rw [run_analyzeFile_uncached hread]
  refine ⟨fun a ha => ?_, fun fault hfault => ?_⟩
  · obtain ⟨_, -, hrun⟩ := bind_eq_ok_iff.mp ha
    refine ⟨Analysis.skipped_of_run hrun, ?_⟩
    rw [hok a ha]
    rfl
  · obtain ⟨during, hduring⟩ := herror fault hfault
    refine ⟨during, ?_⟩
    rw [hduring]
    rfl

/-- Commas, quotes and line breaks in blocks and tokens do no harm, and neither does a second byte
order mark. -/
theorem analyzeFile_quotedTokens :
    let observations : List Observation :=
      [⟨⟨"a,b"⟩, .leftOperand, "[rbp-4],\r\n\"eax\""⟩, ⟨⟨"\ufeffb"⟩, .instruction, "jmp\""⟩]
    (Settings.standard : Settings Float).inputKind = .occurrences ∧
    (∀ o ∈ observations, o.IsTrimmed) ∧
    ∃ d', (Disk.within ["w"]).write "in.csv" (Ingest.observationTable observations).toUTF8 = .ok d' ∧
      ∃ a, Analysis.ofObservations (Settings.standard : Settings Float) observations = .ok a ∧
        (analyzeFile "in.csv" (Settings.standard : Settings Float) none none :
          Task Float (StateM Disk) _).run.run d' =
            (.ok ({ a with report := { a.report with input := some "in.csv" } }, []), d') := by
  intro observations
  have htrimmed : ∀ o ∈ observations, o.IsTrimmed := by decide +kernel
  have hvalid : (Settings.standard : Settings Float).validate = .ok () := by rfl
  have hlength : observations.length < 2 ^ 64 := by decide
  obtain ⟨a, ha, -⟩ := Analysis.exists_run_of_isBounded hvalid
    (Analysis.isBounded_filtered Settings.standard (Ingest.isBounded_profilesOf hlength)) 0
  have hanalysis : Analysis.ofObservations (Settings.standard : Settings Float) observations = .ok a :=
    bind_eq_ok_iff.mpr ⟨(), hvalid, ha⟩
  refine ⟨rfl, htrimmed, _, rfl, a, hanalysis, ?_⟩
  exact ((analyzeFile_of_write_observationTable Settings.standard rfl observations htrimmed
    (Disk.within ["w"]) _ "in.csv" rfl).1 a hanalysis).2

end BlockAffinity.Run
