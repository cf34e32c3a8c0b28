import BlockAffinity.Proofs.Ingest.Tables
import BlockAffinity.Proofs.Text.Trim

/-!
# BlockAffinity.Proofs.Ingest.Accepted

**What is accepted of a table** (`Analysis.acceptedObservations`), whatever its kind: observations whose
blocks and tokens are not empty and have no blanks around them. The profiles that are loaded are those
of the accepted observations, counted or weighted (`Analysis.accepted_of_loadProfiles`).
-/

namespace BlockAffinity

theorem Text.isTrimmed_trim {s : String} (h : Text.trim s ≠ "") : Text.IsTrimmed (Text.trim s) :=
  ⟨h, Text.trim_trim s⟩

namespace Ingest

variable {α β γ : Type}

theorem isTrimmed_of_required {line : Nat} {text : Option String} {column value : String}
    (h : required (α := α) line text column = .ok value) : Text.IsTrimmed value := by
  unfold required at h
  dsimp only at h
  split at h
  · exact absurd h (by simp)
  · rename_i hvalue
    obtain rfl := Except.ok.inj h
    exact Text.isTrimmed_trim fun hempty => hvalue (by simp [hempty])

/-- A row that passes stands for trimmed texts. -/
theorem isTrimmed_of_check {row : RawRow} {o : Observation}
    (h : RawRow.check (α := α) row = .ok o) : o.IsTrimmed := by
  obtain ⟨block, hblock, h⟩ := bind_eq_ok_iff.mp h
  obtain ⟨roleText, -, h⟩ := bind_eq_ok_iff.mp h
  obtain ⟨token, htoken, h⟩ := bind_eq_ok_iff.mp h
  split at h
  · obtain rfl := Except.ok.inj h
    exact ⟨isTrimmed_of_required hblock, isTrimmed_of_required htoken⟩
  · exact absurd h (by simp)

theorem isTrimmed_of_checkWeighted [Scalar α] [ScalarText α] {row : RawRow × Option String}
    {w : Weighted α} (h : checkWeighted row = .ok w) : w.observation.IsTrimmed := by
  obtain ⟨o, ho, h⟩ := bind_eq_ok_iff.mp h
  obtain ⟨weight, -, h⟩ := bind_eq_ok_iff.mp h
  obtain rfl := Except.ok.inj h
  exact isTrimmed_of_check ho

/-- What is accepted has passed. -/
theorem exists_of_mem_accepted {policy : Policy} {check : β → Except (Fault α) γ} {rows : List β}
    {accepted : Accepted γ} (h : acceptRows policy check rows = .ok accepted) {value : γ}
    (hvalue : value ∈ accepted.rows) : ∃ row ∈ rows, check row = .ok value := by
  rw [rows_of_acceptRows h, List.mem_filterMap] at hvalue
  obtain ⟨row, hrow, hvalue⟩ := hvalue
  cases hcheck : check row with
  | error fault => simp [hcheck, Except.toOption] at hvalue
  | ok found =>
      rw [hcheck] at hvalue
      exact ⟨row, hrow, by rw [hcheck, Option.some.inj hvalue]⟩

end Ingest

namespace Analysis

variable {α : Type} [Scalar α] [ScalarText α] {settings : Settings α} {table : Csv.Table}

/-- The observations that the settings accept from the raw rows of a table. -/
def acceptedRaw (rawRows : Csv.Table → Except (Fault α) (List Ingest.RawRow)) (settings : Settings α)
    (table : Csv.Table) : Except (Fault α) (List Observation) := do
  let rows ← rawRows table
  let accepted ← Ingest.acceptRows settings.malformed Ingest.RawRow.check rows
  return accepted.rows

/-- The observations that the settings accept from a table, in the order of its rows. -/
def acceptedObservations (settings : Settings α) (table : Csv.Table) :
    Except (Fault α) (List Observation) :=
  match settings.inputKind with
  | .occurrences => acceptedRaw Ingest.occurrenceRows settings table
  | .disassembly => acceptedRaw Ingest.disassemblyRows settings table
  | .probabilities => do
      let accepted ← Ingest.weightedRows table settings.malformed
      return accepted.rows.map Ingest.Weighted.observation

omit [ScalarText α] in
theorem AcceptsRaw.exists_accepted {rawRows : Csv.Table → Except (Fault α) (List Ingest.RawRow)}
    {loaded : Profiles α × Nat} (h : AcceptsRaw rawRows settings table loaded) :
    ∃ observations, acceptedRaw rawRows settings table = .ok observations ∧
      (∀ o ∈ observations, o.IsTrimmed) ∧
      loaded.1 = filtered settings (Ingest.profilesOf observations) := by
  obtain ⟨rows, accepted, hrows, haccepted, rfl⟩ := h
  refine ⟨accepted.rows, bind_eq_ok_iff.mpr ⟨rows, hrows, bind_eq_ok_iff.mpr
    ⟨accepted, haccepted, rfl⟩⟩, fun o ho => ?_, rfl⟩
  obtain ⟨row, -, hrow⟩ := Ingest.exists_of_mem_accepted haccepted ho
  exact Ingest.isTrimmed_of_check hrow

/-- Weighted observations that are accepted are trimmed. -/
theorem isTrimmed_of_weightedRows {policy : Ingest.Policy}
    {accepted : Ingest.Accepted (Ingest.Weighted α)}
    (h : Ingest.weightedRows table policy = .ok accepted) {w : Ingest.Weighted α}
    (hw : w ∈ accepted.rows) : w.observation.IsTrimmed := by
  obtain ⟨column, -, h⟩ := bind_eq_ok_iff.mp h
  obtain ⟨rows, -, h⟩ := bind_eq_ok_iff.mp h
  obtain ⟨row, -, hrow⟩ := Ingest.exists_of_mem_accepted h hw
  exact Ingest.isTrimmed_of_checkWeighted hrow

/-- **Accepted observations are trimmed**, and the profiles that are loaded are theirs. -/
theorem accepted_of_loadProfiles {loaded : Profiles α × Nat}
    (h : loadProfiles settings table = .ok loaded) :
    ∃ observations, acceptedObservations settings table = .ok observations ∧
      (∀ o ∈ observations, o.IsTrimmed) ∧
      match settings.inputKind with
      | .probabilities => ∃ rows, observations = rows.map Ingest.Weighted.observation ∧
          loaded.1 = filtered settings (Ingest.profilesOfWeights rows)
      | _ => loaded.1 = filtered settings (Ingest.profilesOf observations) := by
  have hbehind := accepts_of_loadProfiles h
  rw [acceptedObservations]
  cases hkind : settings.inputKind with
  | occurrences =>
      rw [hkind] at hbehind
      exact AcceptsRaw.exists_accepted hbehind
  | disassembly =>
      rw [hkind] at hbehind
      exact AcceptsRaw.exists_accepted hbehind
  | probabilities =>
      rw [hkind] at hbehind
      obtain ⟨accepted, haccepted, rfl⟩ := hbehind
      refine ⟨_, bind_eq_ok_iff.mpr ⟨accepted, haccepted, rfl⟩, fun o ho => ?_, accepted.rows, rfl, rfl⟩
      obtain ⟨w, hw, rfl⟩ := List.mem_map.mp ho
      exact isTrimmed_of_weightedRows haccepted hw

end Analysis

end BlockAffinity
