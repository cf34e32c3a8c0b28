import BlockAffinity.Proofs.Analysis.Stages
import BlockAffinity.Proofs.ScoreMatrix.Scoring

/-!
# BlockAffinity.Proofs.Analysis.Totality

**Only settings can be refused.** An analysis of observations fails exactly where its settings do not
validate, and then with what is wrong with them (`Analysis.ofObservations_eq_ok_iff`). No score, no
matrix, no cut and no silhouette gets in the way: the probabilities of observed blocks are between
zero and one, the scores of such blocks are acceptable and their distances are valid, and from there
on every stage goes through.
-/

namespace BlockAffinity

open Scalar

namespace Settings

variable {settings : Settings Float}

/-- Thresholds that validate are numbers. -/
theorem isNaN_of_validate (h : settings.validate = .ok ()) {value : Float}
    (hvalue : value ∈ settings.threshold.toList ++ settings.sweep) : isNaN value = false := by
  unfold validate at h
  split at h
  · rename_i hnone
    have hgood := List.find?_eq_none.mp hnone value hvalue
    simp only [isThreshold, Bool.not_eq_true, Bool.not_eq_false', Bool.and_eq_true] at hgood
    exact Double.isNaN_of_isFinite hgood.1
  · exact absurd h (by simp)

/-- What is wrong with settings is a threshold that cannot be used. -/
theorem exists_of_validate_error {α : Type} [Scalar α] {settings : Settings α} {fault : Fault α}
    (h : settings.validate = .error fault) :
    ∃ value ∈ settings.threshold.toList ++ settings.sweep,
      isThreshold value = false ∧ fault = .settings (.threshold value) := by
  unfold validate at h
  split at h
  · exact absurd h (by simp)
  · rename_i value hfound
    obtain rfl := Except.error.inj h
    have hbad := List.find?_some hfound
    exact ⟨value, List.mem_of_find?_eq_some hfound, by simpa using hbad, rfl⟩

end Settings

namespace Analysis

theorem isBounded_filtered (settings : Settings Float) {profiles : Profiles Float}
    (h : Profiles.IsBounded profiles) : Profiles.IsBounded (filtered settings profiles) := by
  unfold filtered
  split
  · exact Entropy.isBounded_filterProfiles h
  · exact h

/-- **A fresh run on bounded profiles** goes through. -/
theorem exists_run_of_isBounded {settings : Settings Float} (hsettings : settings.validate = .ok ())
    {profiles : Profiles Float} (h : Profiles.IsBounded profiles) (skipped : Nat) :
    ∃ a, run settings profiles skipped none = .ok a ∧
      a.scores.distances.ids = a.profiles.ids ∧ a.scores.distances.WellShaped ∧
      ∀ similarities ∈ a.scores.similarities,
        similarities.ids = a.profiles.ids ∧ similarities.WellShaped := by
  obtain ⟨scores, hscore, hids, hshaped, hvalid, hsimilarities⟩ := exists_score_eq_ok settings h
  have hchoice : chooseScores settings profiles none = .ok (scores, false) := by
    rw [chooseScores, hscore]
    rfl
  obtain ⟨a, hrun, rfl, rfl⟩ := exists_run_eq_ok skipped hchoice hvalid
    (hids ▸ profiles.distinct) fun value hvalue => Settings.isNaN_of_validate hsettings hvalue
  exact ⟨a, hrun, hids, hshaped, hsimilarities⟩

/-- **An analysis of observations succeeds exactly if its settings validate**, and fails with what is
wrong with them otherwise. The matrices of a successful one have a value in every cell. The number of
observations is that of a list in memory. -/
theorem ofObservations_eq_ok_iff (settings : Settings Float) (observations : List Observation)
    (hlength : observations.length < 2 ^ 64) :
    ((∃ a, ofObservations settings observations = .ok a) ↔ settings.validate = .ok ()) ∧
      (∀ fault, settings.validate = .error fault →
        ofObservations settings observations = .error fault ∧
          ∃ value ∈ settings.threshold.toList ++ settings.sweep,
            Settings.isThreshold value = false ∧ fault = .settings (.threshold value)) ∧
      ∀ a, ofObservations settings observations = .ok a →
        a.scores.distances.ids = a.profiles.ids ∧ a.scores.distances.WellShaped ∧
        ∀ similarities ∈ a.scores.similarities,
          similarities.ids = a.profiles.ids ∧ similarities.WellShaped := by
  have hrun : settings.validate = .ok () → ∃ a, ofObservations settings observations = .ok a ∧
      a.scores.distances.ids = a.profiles.ids ∧ a.scores.distances.WellShaped ∧
      ∀ similarities ∈ a.scores.similarities,
        similarities.ids = a.profiles.ids ∧ similarities.WellShaped := by
    intro hsettings
    obtain ⟨a, hrun, hmatrices⟩ := exists_run_of_isBounded hsettings
      (isBounded_filtered settings (Ingest.isBounded_profilesOf hlength)) 0
    exact ⟨a, bind_eq_ok_iff.mpr ⟨(), hsettings, hrun⟩, hmatrices⟩
  refine ⟨⟨?_, fun hsettings => ?_⟩, ?_, ?_⟩
  · rintro ⟨a, ha⟩
    obtain ⟨⟨⟩, hsettings, -⟩ := bind_eq_ok_iff.mp ha
    exact hsettings
  · obtain ⟨a, ha, -⟩ := hrun hsettings
    exact ⟨a, ha⟩
  · intro fault hfault
    refine ⟨?_, Settings.exists_of_validate_error hfault⟩
    rw [ofObservations, hfault]
    rfl
  · intro a ha
    obtain ⟨⟨⟩, hsettings, -⟩ := bind_eq_ok_iff.mp ha
    obtain ⟨a', ha', hmatrices⟩ := hrun hsettings
    obtain rfl := Except.ok.inj (ha.symm.trans ha')
    exact hmatrices

/-- Two blocks are analysed by the standard settings, and refused with a cut below zero. -/
theorem ofObservations_twoBlocks :
    let observations : List Observation :=
      [⟨⟨"a"⟩, .instruction, "mov"⟩, ⟨⟨"a"⟩, .leftOperand, "eax"⟩, ⟨⟨"b"⟩, .instruction, "jmp"⟩]
    let refused : Settings Float := { Settings.standard with threshold := some (-1) }
    observations.length < 2 ^ 64 ∧
      (Settings.standard : Settings Float).validate = .ok () ∧
      (∃ a, ofObservations (Settings.standard : Settings Float) observations = .ok a ∧
        a.scores.distances.WellShaped) ∧
      ofObservations refused observations = .error (.settings (.threshold (-1))) := by
  intro observations refused
  have hlength : observations.length < 2 ^ 64 := by decide
  have hstandard : (Settings.standard : Settings Float).validate = .ok () := by rfl
  have hrefused : refused.validate = .error (.settings (.threshold (-1))) := by rfl
  obtain ⟨hiff, -, hmatrices⟩ := ofObservations_eq_ok_iff Settings.standard observations hlength
  obtain ⟨a, ha⟩ := hiff.mpr hstandard
  obtain ⟨-, herror, -⟩ := ofObservations_eq_ok_iff refused observations hlength
  exact ⟨hlength, hstandard, ⟨a, ha, (hmatrices a ha).2.1⟩, (herror _ hrefused).1⟩

end Analysis

end BlockAffinity
