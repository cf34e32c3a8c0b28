import BlockAffinity.Proofs.Ingest.Accepted
import BlockAffinity.Proofs.Lists

/-!
# BlockAffinity.Proofs.Ingest.Malformed

**Malformed rows under the two policies.** The rows of a table stand for raw rows, and a row is malformed
if one of these does not pass (`Analysis.rowFault?`).

* Aborting is stopping at the first fault (`Ingest.acceptRows_abort`), skipping is going on without the
  rows that have one (`Ingest.acceptRows_skip`).
* A missing column is found before any row is looked at (`Ingest.occurrenceRows_eq` and its likes), so
  no policy has a say in it.
* A row stands for at most one malformed raw row (`Ingest.Expands`), also a row of instructions, whose
  operands always pass. So what is said of raw rows can be said of the rows of the table.

Each kind of table reads its rows in this way (`Analysis.ReadsRows`), and from there on the kinds need
not be told apart, except that a malformed row of instructions may have operands that are kept.
-/

namespace BlockAffinity

/-- What stands in the way of a result. -/
def faultOf? {ε β : Type} : Except ε β → Option ε
  | .ok _ => none
  | .error fault => some fault

theorem faultOf?_eq_some_iff {ε β : Type} {x : Except ε β} {fault : ε} :
    faultOf? x = some fault ↔ x = .error fault := by
  cases x <;> simp [faultOf?]

namespace Ingest

variable {α β γ : Type} {check : β → Except (Fault α) γ} {rows : List β}

/-- **Aborting** reports the first row that does not pass. -/
theorem acceptRows_abort (check : β → Except (Fault α) γ) (rows : List β) :
    acceptRows .abort check rows =
      match rows.findSome? fun row => faultOf? (check row) with
      | some fault => .error fault
      | none => .ok ⟨rows.filterMap fun row => (check row).toOption, 0⟩ := by
  induction rows with
  | nil => rfl
  | cons row rest ih =>
      rw [acceptRows, ih, List.findSome?_cons, List.filterMap_cons]
      cases check row with
      | error fault => simp [faultOf?]
      | ok value => cases rest.findSome? fun row => faultOf? (check row) <;> rfl

/-- **Skipping** accepts the rows that pass and counts the others. -/
theorem acceptRows_skip
    (h : ∀ row ∈ rows, ∀ fault, check row = .error fault → fault.isRecoverable = true) :
    acceptRows .skip check rows = .ok ⟨rows.filterMap fun row => (check row).toOption,
      rows.countP fun row => (faultOf? (check row)).isSome⟩ := by
  induction rows with
  | nil => rfl
  | cons row rest ih =>
      rw [List.forall_mem_cons] at h
      rw [acceptRows, ih h.2, List.countP_cons, List.filterMap_cons]
      cases hcheck : check row with
      | ok value => rfl
      | error fault => simp [h.1 fault hcheck, faultOf?, Except.toOption, Except.map]

/-! ### Faults of raw rows -/

/-- A field that is required and missing is reported with the line. -/
theorem malformed_of_required {line : Nat} {text : Option String} {column : String}
    {fault : Fault α} (h : required line text column = .error fault) :
    ∃ defect, fault = .malformedRecord line defect := by
  unfold required at h
  dsimp only at h
  split at h
  · exact ⟨_, (Except.error.inj h).symm⟩
  · cases h

/-- **A raw row that does not pass** is reported as malformed, with its line. -/
theorem malformed_of_check {row : RawRow} {fault : Fault α} (h : row.check = .error fault) :
    ∃ defect, fault = .malformedRecord row.line defect := by
  rcases bind_eq_error_iff.mp h with h | ⟨block, -, h⟩
  · exact malformed_of_required h
  rcases bind_eq_error_iff.mp h with h | ⟨roleText, -, h⟩
  · exact malformed_of_required h
  rcases bind_eq_error_iff.mp h with h | ⟨token, -, h⟩
  · exact malformed_of_required h
  split at h
  · cases h
  · exact ⟨_, (Except.error.inj h).symm⟩

theorem malformed_of_checkWeighted [Scalar α] [ScalarText α] {row : RawRow × Option String}
    {fault : Fault α} (h : checkWeighted row = .error fault) :
    ∃ defect, fault = .malformedRecord row.1.line defect := by
  rcases bind_eq_error_iff.mp h with h | ⟨o, -, h⟩
  · exact malformed_of_check h
  rcases bind_eq_error_iff.mp h with h | ⟨weight, -, h⟩
  · unfold checkWeight at h
    dsimp only at h
    split at h
    · exact ⟨_, (Except.error.inj h).symm⟩
    · split at h
      · exact ⟨_, (Except.error.inj h).symm⟩
      · cases h
  · cases h

theorem required_of_isMissing {text : Option String} (h : isMissing text = false) (line : Nat)
    (column : String) : ∃ value, required (α := α) line text column = .ok value := by
  cases text with
  | none => cases h
  | some text =>
      have hblank : Text.isBlank text = false := h
      have hempty : (Text.trim text).isEmpty = false := by
        rw [← Bool.not_eq_true, String.isEmpty_iff, ← String.toList_eq_nil_iff, Text.toList_trim,
          Text.trimChars_eq_nil_iff]
        exact ne_true_of_eq_false hblank
      refine ⟨Text.trim text, ?_⟩
      rw [required, Option.getD_some, hempty]
      rfl

/-- A raw row with a block, the name of a role and a token passes. -/
theorem exists_check_eq_ok {line : Nat} {id token : Option String} {role : Role}
    (hid : isMissing id = false) (htoken : isMissing token = false) :
    ∃ o, RawRow.check (α := α) ⟨line, id, some role.label, token⟩ = .ok o := by
  obtain ⟨block, hblock⟩ := required_of_isMissing (α := α) hid line blockColumn
  obtain ⟨text, htext⟩ := required_of_isMissing (α := α) htoken line tokenColumn
  refine ⟨⟨⟨block⟩, role, text⟩, ?_⟩
  rw [RawRow.check, hblock, required_of_isTrimmed (isTrimmed_label role), htext]
  dsimp only [bind, Except.bind]
  rw [ofText?_label]
  rfl

/-! ### Rows of tables -/

/-- The raw row of a row of a table of occurrences. -/
def occurrenceRow (table : Csv.Table) (row : Csv.Row) : RawRow :=
  ⟨row.line, row.field? (table.column? blockColumn), row.field? (table.column? roleColumn),
    row.field? (table.column? tokenColumn)⟩

/-- The raw rows of a row of a table of instructions. -/
def instructionRowsOf (table : Csv.Table) (row : Csv.Row) : List RawRow :=
  instructionRows (table.column? blockColumn) (table.column? Role.instruction.label)
    (table.column? Role.leftOperand.label) (table.column? Role.rightOperand.label) row

/-- The raw row of the mnemonic, which comes first and is the only one that may not pass. -/
def mnemonicRow (table : Csv.Table) (row : Csv.Row) : RawRow :=
  ⟨row.line, row.field? (table.column? blockColumn), some Role.instruction.label,
    row.field? (table.column? Role.instruction.label)⟩

/-- The raw row of a row of a table of probabilities, with the text of its weight. -/
def probabilityRow (table : Csv.Table) (row : Csv.Row) : RawRow × Option String :=
  (occurrenceRow table row, row.field? (table.column? probabilityColumn))

/-- The first of the columns that a table does not have. -/
def missingColumn? (table : Csv.Table) (columns : List String) : Option String :=
  columns.find? fun name => (table.column? name).isNone

/-- The columns that a table of occurrences must have, in the order in which they are looked for. -/
def occurrenceColumns : List String := [blockColumn, roleColumn, tokenColumn]

/-- The columns that a table of instructions must have. -/
def instructionColumns : List String := [blockColumn, Role.instruction.label]

theorem missingColumn?_cons (table : Csv.Table) (name : String) (columns : List String) :
    missingColumn? table (name :: columns) =
      match table.column? name with
      | none => some name
      | some _ => missingColumn? table columns := by
  rw [missingColumn?, List.find?_cons]
  cases table.column? name <;> rfl

theorem requireColumn_eq (table : Csv.Table) (name : String) :
    requireColumn (α := α) table name =
      match table.column? name with
      | some index => .ok index
      | none => .error (.malformedRecord 1 (.missingColumn name table.headers)) := rfl

/-- **The columns come first**: a table of occurrences lacks one of them or has its raw rows. -/
theorem occurrenceRows_eq (table : Csv.Table) :
    occurrenceRows (α := α) table =
      match missingColumn? table occurrenceColumns with
      | some name => .error (.malformedRecord 1 (.missingColumn name table.headers))
      | none => .ok (table.records.map (occurrenceRow table)) := by
  unfold occurrenceRows occurrenceRow occurrenceColumns
  simp only [requireColumn_eq, missingColumn?_cons]
  cases table.column? blockColumn with
  | none => rfl
  | some block =>
      cases table.column? roleColumn with
      | none => rfl
      | some role => cases table.column? tokenColumn <;> rfl

theorem disassemblyRows_eq (table : Csv.Table) :
    disassemblyRows (α := α) table =
      match missingColumn? table instructionColumns with
      | some name => .error (.malformedRecord 1 (.missingColumn name table.headers))
      | none => .ok (table.records.flatMap (instructionRowsOf table)) := by
  unfold disassemblyRows instructionRowsOf instructionColumns
  simp only [requireColumn_eq, missingColumn?_cons]
  cases table.column? blockColumn with
  | none => rfl
  | some block => cases table.column? Role.instruction.label <;> rfl

theorem weightedRows_eq [Scalar α] [ScalarText α] (table : Csv.Table) (policy : Policy) :
    weightedRows (α := α) table policy =
      match missingColumn? table (probabilityColumn :: occurrenceColumns) with
      | some name => .error (.malformedRecord 1 (.missingColumn name table.headers))
      | none => acceptRows policy checkWeighted (table.records.map (probabilityRow table)) := by
  unfold probabilityRow
  rw [weightedRows, occurrenceRows_eq, requireColumn_eq, missingColumn?_cons]
  cases table.column? probabilityColumn with
  | none => rfl
  | some column =>
      cases missingColumn? table occurrenceColumns with
      | some name => rfl
      | none =>
          change acceptRows _ _ ((table.records.map _).zip (table.records.map _)) = _
          rw [List.zip_map']

/-! ### Rows with at most one malformed raw row -/

/-- Each row of a table stands for raw rows of which at most one does not pass, with the given
fault and the line of the row. -/
structure Expands (check : β → Except (Fault α) γ) (expand : Csv.Row → List β)
    (fault? : Csv.Row → Option (Fault α)) : Prop where
  first : ∀ row, (expand row).findSome? (fun raw => faultOf? (check raw)) = fault? row
  count : ∀ row, (expand row).countP (fun raw => (faultOf? (check raw)).isSome) =
    if (fault? row).isSome then 1 else 0
  line : ∀ row, ∀ raw ∈ expand row, ∀ fault, check raw = .error fault →
    ∃ defect, fault = .malformedRecord row.line defect

/-- Rows that stand for one raw row. -/
theorem Expands.single {expand : Csv.Row → β}
    (h : ∀ row fault, check (expand row) = .error fault →
      ∃ defect, fault = .malformedRecord row.line defect) :
    Expands check (fun row => [expand row]) fun row => faultOf? (check (expand row)) where
  first row := by
    rw [List.findSome?_cons, List.findSome?_nil]
    cases faultOf? (check (expand row)) <;> rfl
  count row := by rw [List.countP_singleton]
  line row raw hraw fault hfault := h row fault (List.mem_singleton.mp hraw ▸ hfault)

/-- The raw rows of operands pass. -/
theorem exists_check_of_mem_tail {table : Csv.Table} {row : Csv.Row} {raw : RawRow}
    (h : raw ∈ (instructionRowsOf table row).tail) :
    ∃ o, RawRow.check (α := α) raw = .ok o := by
  rw [instructionRowsOf, instructionRows, List.tail_cons] at h
  split at h
  · cases h
  · rename_i hid
    rw [List.mem_append] at h
    rcases h with h | h <;>
    · dsimp only at h
      split at h
      · cases h
      · rename_i htoken
        rw [List.mem_singleton.mp h]
        exact exists_check_eq_ok (eq_false_of_ne_true hid) (eq_false_of_ne_true htoken)

/-- **A row of instructions has one malformed raw row at most**, that of the mnemonic. -/
theorem Expands.instructions (table : Csv.Table) :
    Expands (α := α) RawRow.check (instructionRowsOf table) fun row =>
      faultOf? (mnemonicRow table row).check := by
  have hcons (row : Csv.Row) : instructionRowsOf table row =
      mnemonicRow table row :: (instructionRowsOf table row).tail := rfl
  have hpass (row : Csv.Row) (raw : RawRow) (hraw : raw ∈ (instructionRowsOf table row).tail) :
      faultOf? (RawRow.check (α := α) raw) = none := by
    obtain ⟨o, ho⟩ := exists_check_of_mem_tail (α := α) hraw
    rw [ho]
    rfl
  refine ⟨fun row => ?_, fun row => ?_, fun row raw hraw fault hfault => ?_⟩
  · rw [hcons, List.findSome?_cons, List.findSome?_eq_none_iff.mpr (hpass row)]
    cases faultOf? (mnemonicRow table row).check <;> rfl
  · rw [hcons, List.countP_cons, List.countP_eq_zero.mpr fun raw hraw => by simp [hpass row raw hraw],
      Nat.zero_add]
  · rw [hcons, List.mem_cons] at hraw
    rcases hraw with rfl | hraw
    · exact malformed_of_check hfault
    · obtain ⟨o, ho⟩ := exists_check_of_mem_tail (α := α) hraw
      rw [ho] at hfault
      cases hfault

-- A row without a mnemonic has an operand that passes: skipping keeps it, deleting the row would not.
example :
    let table : Csv.Table := ⟨["Block_ID", "Instruction", "Left Operand"], []⟩
    (instructionRowsOf table ⟨3, ["a", "", "ebx"]⟩).map (fun raw => (RawRow.check (α := Nat) raw).toOption) =
      [none, some ⟨⟨"a"⟩, .leftOperand, "ebx"⟩] := by
  decide +kernel

section Expands

variable {expand : Csv.Row → List β} {fault? : Csv.Row → Option (Fault α)}

theorem Expands.exists_eq (h : Expands check expand fault?) {row : Csv.Row} {fault : Fault α}
    (hfault : fault? row = some fault) : ∃ defect, fault = .malformedRecord row.line defect := by
  rw [← h.first row, List.findSome?_eq_some_iff] at hfault
  obtain ⟨before, raw, after, hexpand, hraw, -⟩ := hfault
  exact h.line row raw (by simp [hexpand]) fault (faultOf?_eq_some_iff.mp hraw)

/-- Aborting reports the first malformed row. -/
theorem Expands.abort (h : Expands check expand fault?) (records : List Csv.Row) :
    acceptRows .abort check (records.flatMap expand) =
      match records.findSome? fault? with
      | some fault => .error fault
      | none => .ok ⟨(records.flatMap expand).filterMap fun raw => (check raw).toOption, 0⟩ := by
  rw [acceptRows_abort, findSome?_flatMap, funext h.first]

/-- As many raw rows do not pass as rows are malformed. -/
theorem Expands.countP_flatMap (h : Expands check expand fault?) (records : List Csv.Row) :
    (records.flatMap expand).countP (fun raw => (faultOf? (check raw)).isSome) =
      records.countP fun row => (fault? row).isSome := by
  induction records with
  | nil => rfl
  | cons row records ih =>
      rw [List.flatMap_cons, List.countP_append, h.count, ih, List.countP_cons, Nat.add_comm]

/-- Skipping counts the malformed rows. -/
theorem Expands.skip (h : Expands check expand fault?) (records : List Csv.Row) :
    acceptRows .skip check (records.flatMap expand) =
      .ok ⟨(records.flatMap expand).filterMap fun raw => (check raw).toOption,
        records.countP fun row => (fault? row).isSome⟩ := by
  have hrecoverable : ∀ raw ∈ records.flatMap expand, ∀ fault, check raw = .error fault →
      fault.isRecoverable = true := by
    intro raw hraw fault hfault
    obtain ⟨row, -, hraw⟩ := List.mem_flatMap.mp hraw
    obtain ⟨defect, rfl⟩ := h.line row raw hraw fault hfault
    rfl
  rw [acceptRows_skip hrecoverable, h.countP_flatMap]

/-- Without the malformed rows the same values are left, if each row stands for one raw row. -/
theorem Expands.filterMap_filter {expand : Csv.Row → β}
    (h : Expands check (fun row => [expand row]) fault?) (records : List Csv.Row) :
    ((records.filter fun row => (fault? row).isNone).flatMap fun row => [expand row]).filterMap
        (fun raw => (check raw).toOption) =
      (records.flatMap fun row => [expand row]).filterMap fun raw => (check raw).toOption := by
  have hfault (row : Csv.Row) : fault? row = faultOf? (check (expand row)) := by
    rw [← h.first row, List.findSome?_singleton]
  rw [← List.map_eq_flatMap, ← List.map_eq_flatMap, List.filterMap_map, List.filterMap_map,
    List.filterMap_filter]
  refine List.filterMap_congr fun row _ => ?_
  rw [hfault]
  cases hcheck : check (expand row) <;> simp [faultOf?, hcheck, Except.toOption]

end Expands

end Ingest

namespace Analysis

open Ingest

variable {α : Type} [Scalar α] [ScalarText α] {settings : Settings α} {table : Csv.Table}

/-- The columns that a table must have, in the order in which they are looked for. -/
def requiredColumns : InputKind → List String
  | .occurrences => occurrenceColumns
  | .disassembly => instructionColumns
  | .probabilities => probabilityColumn :: occurrenceColumns

/-- What is wrong with a row of a table, if anything. -/
def rowFault? (kind : InputKind) (table : Csv.Table) (row : Csv.Row) : Option (Fault α) :=
  match kind with
  | .occurrences => faultOf? (occurrenceRow table row).check
  | .disassembly => faultOf? (mnemonicRow table row).check
  | .probabilities => faultOf? (checkWeighted (probabilityRow table row))

/-- The table without its malformed rows. -/
def withoutMalformed (α : Type) [Scalar α] [ScalarText α] (kind : InputKind) (table : Csv.Table) :
    Csv.Table :=
  { table with records := table.records.filter fun row => (rowFault? (α := α) kind table row).isNone }

/-- The profiles of a table under a policy, all else as in the settings. -/
def loadUnder (settings : Settings α) (policy : Policy) (table : Csv.Table) :
    Except (Fault α) (Profiles α × Nat) :=
  loadProfiles { settings with malformed := policy } table

/-- How profiles are made from the rows of tables with the header of this one: each row stands for raw
rows, and the profiles are built from what is accepted of these. -/
structure ReadsRows {β γ : Type} (settings : Settings α) (table : Csv.Table)
    (check : β → Except (Fault α) γ) (expand : Csv.Row → List β) (build : List γ → Profiles α) :
    Prop where
  expands : Expands check expand (rowFault? settings.inputKind table)
  load : ∀ policy records, loadUnder settings policy { table with records } =
    (acceptRows policy check (records.flatMap expand)).map fun accepted =>
      (filtered settings (build accepted.rows), accepted.skipped)

/-- **What the two policies say about a table** that has its columns: skipping gives profiles and counts
the malformed rows; aborting gives the same if there are none, else it reports the first of them. -/
structure PoliciesAgree (settings : Settings α) (table : Csv.Table) (profiles : Profiles α)
    (skipped : Nat) : Prop where
  skip : loadUnder settings .skip table = .ok (profiles, skipped)
  counted : skipped = table.records.countP fun row =>
    (rowFault? (α := α) settings.inputKind table row).isSome
  abort_ok_iff : (∃ loaded, loadUnder settings .abort table = .ok loaded) ↔ skipped = 0
  same : skipped = 0 → loadUnder settings .abort table = loadUnder settings .skip table
  first : skipped ≠ 0 → ∃ before row after defect, table.records = before ++ row :: after ∧
    (∀ earlier ∈ before, rowFault? (α := α) settings.inputKind table earlier = none) ∧
    rowFault? settings.inputKind table row = some (.malformedRecord row.line defect) ∧
    loadUnder settings .abort table = .error (.malformedRecord row.line defect)
  deleted : settings.inputKind ≠ .disassembly →
    loadUnder settings .abort (withoutMalformed α settings.inputKind table) = .ok (profiles, 0)

/-! ### Each kind of table reads its rows -/

/-- A column that is missing is reported under every policy. -/
theorem loadUnder_of_missingColumn {name : String}
    (h : missingColumn? table (requiredColumns settings.inputKind) = some name) (policy : Policy) :
    loadUnder settings policy table =
      .error (.malformedRecord 1 (.missingColumn name table.headers)) := by
  rw [loadUnder, loadProfiles]
  cases hkind : settings.inputKind with
  | occurrences =>
      rw [hkind, requiredColumns] at h
      dsimp only
      rw [occurrenceRows_eq, h]
      rfl
  | disassembly =>
      rw [hkind, requiredColumns] at h
      dsimp only
      rw [disassemblyRows_eq, h]
      rfl
  | probabilities =>
      rw [hkind, requiredColumns] at h
      dsimp only
      rw [weightedRows_eq, h]
      rfl

theorem readsRows_occurrences (hkind : settings.inputKind = .occurrences)
    (h : missingColumn? table occurrenceColumns = none) :
    ReadsRows settings table RawRow.check (fun row => [occurrenceRow table row]) profilesOf where
  expands := by
    rw [hkind]
    exact Expands.single fun row fault => malformed_of_check
  load policy records := by
    have h : missingColumn? { table with records } occurrenceColumns = none := h
    rw [loadUnder, loadProfiles, hkind]
    dsimp only
    rw [occurrenceRows_eq, h, ← List.map_eq_flatMap]
    change (acceptRows (α := α) policy RawRow.check (records.map (occurrenceRow table)) >>= _) = _
    cases acceptRows (α := α) policy RawRow.check (records.map (occurrenceRow table)) <;> rfl

theorem readsRows_disassembly (hkind : settings.inputKind = .disassembly)
    (h : missingColumn? table instructionColumns = none) :
    ReadsRows settings table RawRow.check (instructionRowsOf table) profilesOf where
  expands := by
    rw [hkind]
    exact Expands.instructions table
  load policy records := by
    have h : missingColumn? { table with records } instructionColumns = none := h
    rw [loadUnder, loadProfiles, hkind]
    dsimp only
    rw [disassemblyRows_eq, h]
    change (acceptRows (α := α) policy RawRow.check (records.flatMap (instructionRowsOf table)) >>= _) = _
    cases acceptRows (α := α) policy RawRow.check (records.flatMap (instructionRowsOf table)) <;> rfl

theorem readsRows_probabilities (hkind : settings.inputKind = .probabilities)
    (h : missingColumn? table (probabilityColumn :: occurrenceColumns) = none) :
    ReadsRows settings table checkWeighted (fun row => [probabilityRow table row])
      profilesOfWeights where
  expands := by
    rw [hkind]
    exact Expands.single fun row fault => malformed_of_checkWeighted
  load policy records := by
    have h : missingColumn? { table with records } (probabilityColumn :: occurrenceColumns) = none := h
    rw [loadUnder, loadProfiles, hkind]
    dsimp only
    rw [weightedRows_eq, h, ← List.map_eq_flatMap]
    change (acceptRows (α := α) policy checkWeighted (records.map (probabilityRow table)) >>= _) = _
    cases acceptRows (α := α) policy checkWeighted (records.map (probabilityRow table)) <;> rfl

/-! ### The policies agree -/

section Reads

variable {β γ : Type} {check : β → Except (Fault α) γ} {build : List γ → Profiles α}

theorem ReadsRows.skip {expand : Csv.Row → List β} (h : ReadsRows settings table check expand build) :
    loadUnder settings .skip table =
      .ok (filtered settings
          (build ((table.records.flatMap expand).filterMap fun raw => (check raw).toOption)),
        table.records.countP fun row =>
          (rowFault? (α := α) settings.inputKind table row).isSome) := by
  have hload := h.load .skip table.records
  rw [h.expands.skip] at hload
  exact hload

theorem ReadsRows.abort {expand : Csv.Row → List β} (h : ReadsRows settings table check expand build)
    (records : List Csv.Row) :
    loadUnder settings .abort { table with records } =
      match records.findSome? (rowFault? settings.inputKind table) with
      | some fault => .error fault
      | none => .ok (filtered settings
          (build ((records.flatMap expand).filterMap fun raw => (check raw).toOption)), 0) := by
  rw [h.load, h.expands.abort]
  cases records.findSome? (rowFault? (α := α) settings.inputKind table) <;> rfl

theorem ReadsRows.deleted {expand : Csv.Row → β}
    (h : ReadsRows settings table check (fun row => [expand row]) build) :
    loadUnder settings .abort (withoutMalformed α settings.inputKind table) =
      .ok (filtered settings (build ((table.records.flatMap fun row => [expand row]).filterMap
        fun raw => (check raw).toOption)), 0) := by
  rw [withoutMalformed, h.abort, h.expands.filterMap_filter]
  have hnone : (table.records.filter fun row =>
      (rowFault? (α := α) settings.inputKind table row).isNone).findSome?
        (rowFault? (α := α) settings.inputKind table) = none :=
    List.findSome?_eq_none_iff.mpr fun row hrow => Option.isNone_iff_eq_none.mp (List.mem_filter.mp hrow).2
  rw [hnone]

/-- **Reading rows one after the other makes the policies agree.** -/
theorem ReadsRows.policiesAgree {expand : Csv.Row → List β}
    (h : ReadsRows settings table check expand build)
    (hdeleted : settings.inputKind ≠ .disassembly →
      loadUnder settings .abort (withoutMalformed α settings.inputKind table) =
        .ok (filtered settings
          (build ((table.records.flatMap expand).filterMap fun raw => (check raw).toOption)), 0)) :
    ∃ profiles skipped, PoliciesAgree settings table profiles skipped := by
  have habort := h.abort table.records
  cases hfirst : table.records.findSome? (rowFault? (α := α) settings.inputKind table) with
  | none =>
      -- No row is malformed.
      have hcount : (table.records.countP fun row =>
          (rowFault? (α := α) settings.inputKind table row).isSome) = 0 :=
        List.countP_eq_zero.mpr fun row hrow => by
          rw [List.findSome?_eq_none_iff.mp hfirst row hrow]
          exact Bool.false_ne_true
      rw [hfirst] at habort
      refine ⟨_, 0, ⟨by rw [h.skip, hcount], hcount.symm, ⟨fun _ => rfl, fun _ => ⟨_, habort⟩⟩,
        fun _ => ?_, fun hne => absurd rfl hne, hdeleted⟩⟩
      rw [h.skip, hcount]
      exact habort
  | some fault =>
      rw [hfirst] at habort
      obtain ⟨before, row, after, hrecords, hrow, hbefore⟩ := List.findSome?_eq_some_iff.mp hfirst
      obtain ⟨defect, rfl⟩ := h.expands.exists_eq hrow
      have hcount : (table.records.countP fun row =>
          (rowFault? (α := α) settings.inputKind table row).isSome) ≠ 0 := by
        refine (List.countP_pos_iff.mpr ⟨row, ?_, ?_⟩).ne'
        · rw [hrecords]
          exact List.mem_append_right _ List.mem_cons_self
        · rw [hrow]
          rfl
      refine ⟨_, _, ⟨h.skip, rfl, ⟨fun hok => ?_, fun hzero => absurd hzero hcount⟩,
        fun hzero => absurd hzero hcount,
        fun _ => ⟨before, row, after, defect, hrecords, hbefore, hrow, habort⟩, hdeleted⟩⟩
      obtain ⟨loaded, hloaded⟩ := hok
      cases habort.symm.trans hloaded

end Reads

/-- **The two policies on one table**: a column that is missing is reported with line 1 under both; else
skipping gives profiles, and aborting gives the same or reports the first malformed row. -/
theorem loadProfiles_under_policies (settings : Settings α) (table : Csv.Table) :
    match missingColumn? table (requiredColumns settings.inputKind) with
    | some name => ∀ policy, loadUnder settings policy table =
        .error (.malformedRecord 1 (.missingColumn name table.headers))
    | none => ∃ profiles skipped, PoliciesAgree settings table profiles skipped := by
  cases hmissing : missingColumn? table (requiredColumns settings.inputKind) with
  | some name => exact loadUnder_of_missingColumn hmissing
  | none =>
      cases hkind : settings.inputKind with
      | occurrences =>
          rw [hkind] at hmissing
          have hreads := readsRows_occurrences hkind hmissing
          exact hreads.policiesAgree fun _ => hreads.deleted
      | disassembly =>
          rw [hkind] at hmissing
          exact (readsRows_disassembly hkind hmissing).policiesAgree fun hne => absurd hkind hne
      | probabilities =>
          rw [hkind] at hmissing
          have hreads := readsRows_probabilities hkind hmissing
          exact hreads.policiesAgree fun _ => hreads.deleted

end Analysis

end BlockAffinity
