import BlockAffinity.Analysis
import BlockAffinity.Proofs.Except
import Mathlib.Data.List.Forall2

/-!
# BlockAffinity.Proofs.Ingest.Policies

**What a policy accepts** are the rows that pass, in order, whichever policy it is
(`rows_of_acceptRows`): the policy decides whether there is a result, not what it holds. So the
profiles of a table depend on the input kind and on the entropy filter alone
(`profiles_eq_of_loadProfiles`).
-/

namespace BlockAffinity

namespace Ingest

variable {α β γ : Type} {check : β → Except (Fault α) γ} {rows : List β} {policy : Policy}

/-- Rows that all pass are accepted as they are. -/
theorem acceptRows_eq_ok {values : List γ}
    (h : List.Forall₂ (fun row value => check row = .ok value) rows values) (policy : Policy) :
    acceptRows policy check rows = .ok ⟨values, 0⟩ := by
  induction h with
  | nil => rfl
  | cons hrow _ ih =>
      rw [acceptRows, hrow]
      dsimp only
      rw [ih]
      rfl

/-- **The rows that are accepted** are those that pass. -/
theorem rows_of_acceptRows {accepted : Accepted γ} (h : acceptRows policy check rows = .ok accepted) :
    accepted.rows = rows.filterMap fun row => (check row).toOption := by
  induction rows generalizing accepted with
  | nil =>
      obtain rfl := Except.ok.inj h
      rfl
  | cons row rest ih =>
      rw [acceptRows] at h
      cases hcheck : check row with
      | ok value =>
          rw [hcheck] at h
          obtain ⟨later, hlater, rfl⟩ := exists_of_map_eq_ok h
          rw [List.filterMap_cons_some (by rw [hcheck]; rfl), ← ih hlater]
      | error fault =>
          rw [hcheck] at h
          dsimp only at h
          rw [List.filterMap_cons_none (by rw [hcheck]; rfl)]
          split at h
          · obtain ⟨later, hlater, rfl⟩ := exists_of_map_eq_ok h
            rw [← ih hlater]
          · exact absurd h (by simp)

end Ingest

namespace Analysis

variable {α : Type} [Scalar α] [ScalarText α] {settings settings' : Settings α} {table : Csv.Table}

/-- The raw rows of a table and what is accepted of them are behind the profiles of observations. -/
def AcceptsRaw (rawRows : Csv.Table → Except (Fault α) (List Ingest.RawRow)) (settings : Settings α)
    (table : Csv.Table) (loaded : Profiles α × Nat) : Prop :=
  ∃ rows accepted, rawRows table = .ok rows ∧
    Ingest.acceptRows settings.malformed (Ingest.RawRow.check (α := α)) rows = .ok accepted ∧
    loaded = (filtered settings (Ingest.profilesOf accepted.rows), accepted.skipped)

/-- The rows that are accepted with their weights are behind the profiles of weighted
observations. -/
def AcceptsWeighted (settings : Settings α) (table : Csv.Table) (loaded : Profiles α × Nat) : Prop :=
  ∃ accepted, Ingest.weightedRows table settings.malformed = .ok accepted ∧
    loaded = (filtered settings (Ingest.profilesOfWeights accepted.rows), accepted.skipped)

/-- **What is behind the profiles** that are loaded from a table. -/
theorem accepts_of_loadProfiles {loaded : Profiles α × Nat}
    (h : loadProfiles settings table = .ok loaded) :
    match settings.inputKind with
    | .occurrences => AcceptsRaw Ingest.occurrenceRows settings table loaded
    | .disassembly => AcceptsRaw Ingest.disassemblyRows settings table loaded
    | .probabilities => AcceptsWeighted settings table loaded := by
  rw [loadProfiles] at h
  cases hkind : settings.inputKind with
  | occurrences =>
      rw [hkind] at h
      obtain ⟨rows, hrows, h⟩ := bind_eq_ok_iff.mp h
      obtain ⟨accepted, haccepted, h⟩ := bind_eq_ok_iff.mp h
      exact ⟨rows, accepted, hrows, haccepted, (Except.ok.inj h).symm⟩
  | disassembly =>
      rw [hkind] at h
      obtain ⟨rows, hrows, h⟩ := bind_eq_ok_iff.mp h
      obtain ⟨accepted, haccepted, h⟩ := bind_eq_ok_iff.mp h
      exact ⟨rows, accepted, hrows, haccepted, (Except.ok.inj h).symm⟩
  | probabilities =>
      rw [hkind] at h
      obtain ⟨accepted, haccepted, h⟩ := bind_eq_ok_iff.mp h
      exact ⟨accepted, haccepted, (Except.ok.inj h).symm⟩

omit [ScalarText α] in
/-- Which observations are accepted does not depend on the policy. -/
theorem AcceptsRaw.profiles_eq
    {rawRows : Csv.Table → Except (Fault α) (List Ingest.RawRow)} {loaded loaded' : Profiles α × Nat}
    (hfilter : settings'.entropyFilter = settings.entropyFilter)
    (h : AcceptsRaw rawRows settings table loaded) (h' : AcceptsRaw rawRows settings' table loaded') :
    loaded'.1 = loaded.1 := by
  obtain ⟨rows, accepted, hrows, haccepted, rfl⟩ := h
  obtain ⟨rows', accepted', hrows', haccepted', rfl⟩ := h'
  obtain rfl := Except.ok.inj (hrows.symm.trans hrows')
  rw [Ingest.rows_of_acceptRows haccepted, Ingest.rows_of_acceptRows haccepted', filtered, filtered,
    hfilter]

/-- Which weighted observations are accepted does not depend on the policy. -/
theorem AcceptsWeighted.profiles_eq {loaded loaded' : Profiles α × Nat}
    (hfilter : settings'.entropyFilter = settings.entropyFilter)
    (h : AcceptsWeighted settings table loaded) (h' : AcceptsWeighted settings' table loaded') :
    loaded'.1 = loaded.1 := by
  obtain ⟨accepted, haccepted, rfl⟩ := h
  obtain ⟨accepted', haccepted', rfl⟩ := h'
  obtain ⟨column, hcolumn, haccepted⟩ := bind_eq_ok_iff.mp haccepted
  obtain ⟨rows, hrows, haccepted⟩ := bind_eq_ok_iff.mp haccepted
  obtain ⟨column', hcolumn', haccepted'⟩ := bind_eq_ok_iff.mp haccepted'
  obtain ⟨rows', hrows', haccepted'⟩ := bind_eq_ok_iff.mp haccepted'
  obtain rfl := Except.ok.inj (hcolumn.symm.trans hcolumn')
  obtain rfl := Except.ok.inj (hrows.symm.trans hrows')
  rw [Ingest.rows_of_acceptRows haccepted, Ingest.rows_of_acceptRows haccepted', filtered, filtered,
    hfilter]

/-- **The profiles of a table** are the same under all settings with one input kind and one choice
about the entropy filter. -/
theorem profiles_eq_of_loadProfiles {loaded loaded' : Profiles α × Nat}
    (hkind : settings'.inputKind = settings.inputKind)
    (hfilter : settings'.entropyFilter = settings.entropyFilter)
    (h : loadProfiles settings table = .ok loaded)
    (h' : loadProfiles settings' table = .ok loaded') : loaded'.1 = loaded.1 := by
  have h := accepts_of_loadProfiles h
  have h' := accepts_of_loadProfiles h'
  rw [hkind] at h'
  cases hcase : settings.inputKind with
  | occurrences =>
      rw [hcase] at h h'
      exact AcceptsRaw.profiles_eq hfilter h h'
  | disassembly =>
      rw [hcase] at h h'
      exact AcceptsRaw.profiles_eq hfilter h h'
  | probabilities =>
      rw [hcase] at h h'
      exact AcceptsWeighted.profiles_eq hfilter h h'

end Analysis

end BlockAffinity
