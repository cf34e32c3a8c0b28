import BlockAffinity.Proofs.Ingest.Malformed

/-!
# BlockAffinity.Proofs.Ingest.Instructions

**A table of instructions is read as a table of occurrences.** Each row of instructions stands for
occurrences (`Ingest.occurrencesOf`): one of the mnemonic, also if the mnemonic or the block is missing,
and one of each operand that is not blank, if the block is not blank.

* What is accepted of a raw row depends on its texts only, and a missing text counts as an empty one
  (`Ingest.toOption_check`). So a row of instructions and its occurrences come down to the same
  observations and gaps (`Ingest.map_check_instructionRowsOf`, `Ingest.map_check_rawRow`).
* Skipping keeps the observations and counts the gaps (`Ingest.acceptRows_check_skip`).
* A row of instructions leaves one gap at most (`Ingest.countP_occurrencesOf`), and the observations that
  it leaves are those of its cells, role by role (`Ingest.filterMap_occurrencesOf`).
-/

namespace BlockAffinity

namespace Ingest

variable {α : Type}

/-! ### Occurrences -/

/-- The texts of one occurrence. -/
structure Occurrence where
  block : String
  role : Role
  token : String

/-- The fields of the row of an occurrence. -/
def Occurrence.fields (o : Occurrence) : List String := [o.block, o.role.label, o.token]

/-- What an occurrence stands for, unless a text is blank. -/
def Occurrence.observation? (o : Occurrence) : Option Observation :=
  if Text.isBlank o.block || Text.isBlank o.token then none
  else some ⟨⟨Text.trim o.block⟩, o.role, Text.trim o.token⟩

/-- The text of a cell, empty if the row is too short or there is no such column. -/
def cellText (table : Csv.Table) (row : Csv.Row) (column : String) : String :=
  (row.field? (table.column? column)).getD ""

/-- The cell of a role in a row of instructions as an occurrence. -/
def cellOf (table : Csv.Table) (row : Csv.Row) (role : Role) : Occurrence :=
  ⟨cellText table row blockColumn, role, cellText table row role.label⟩

/-- The occurrence of an operand, if it is not blank. -/
def operandOf (table : Csv.Table) (row : Csv.Row) (role : Role) : List Occurrence :=
  if Text.isBlank (cellText table row role.label) then [] else [cellOf table row role]

/-- The occurrences that a row of instructions stands for. -/
def occurrencesOf (table : Csv.Table) (row : Csv.Row) : List Occurrence :=
  cellOf table row .instruction ::
    if Text.isBlank (cellText table row blockColumn) then []
    else operandOf table row .leftOperand ++ operandOf table row .rightOperand

/-! ### What is accepted of raw rows -/

theorem isEmpty_trim (text : String) : (Text.trim text).isEmpty = Text.isBlank text := by
  rw [Bool.eq_iff_iff, String.isEmpty_iff, ← String.toList_eq_nil_iff, Text.toList_trim,
    Text.trimChars_eq_nil_iff]
  rfl

theorem required_eq (line : Nat) (text : Option String) (column : String) :
    required (α := α) line text column =
      if Text.isBlank (text.getD "") then .error (.malformedRecord line (.missingField column))
      else .ok (Text.trim (text.getD "")) := by
  rw [required, isEmpty_trim]

/-- **What is accepted of a raw row** that names a role. -/
theorem toOption_check (line : Nat) (id token : Option String) (role : Role) :
    (RawRow.check (α := α) ⟨line, id, some role.label, token⟩).toOption =
      Occurrence.observation? ⟨id.getD "", role, token.getD ""⟩ := by
  rw [RawRow.check, Occurrence.observation?]
  dsimp only
  rw [required_of_isTrimmed (isTrimmed_label role), required_eq, required_eq]
  cases Text.isBlank (id.getD "") with
  | true => rfl
  | false =>
      cases Text.isBlank (token.getD "") with
      | true => rfl
      | false =>
          dsimp only [bind, Except.bind, Bool.or_self]
          rw [ofText?_label]
          rfl

theorem isMissing_eq (text : Option String) : isMissing text = Text.isBlank (text.getD "") := by
  cases text <;> rfl

/-- The raw rows of a row of instructions are accepted as its occurrences are. -/
theorem map_check_instructionRowsOf (table : Csv.Table) (row : Csv.Row) :
    ((instructionRowsOf table row).map fun raw => (RawRow.check (α := α) raw).toOption) =
      (occurrencesOf table row).map Occurrence.observation? := by
  have hoperand (role : Role) :
      (if isMissing (row.field? (table.column? role.label)) then []
        else [⟨row.line, row.field? (table.column? blockColumn), some role.label,
          row.field? (table.column? role.label)⟩] : List RawRow).map
          (fun raw => (RawRow.check (α := α) raw).toOption) =
        (operandOf table row role).map Occurrence.observation? := by
    rw [isMissing_eq, ← cellText, operandOf]
    split
    · rfl
    · rw [List.map_singleton, List.map_singleton, toOption_check]
      rfl
  rw [instructionRowsOf, instructionRows, occurrencesOf, List.map_cons, List.map_cons, toOption_check,
    isMissing_eq, ← cellText]
  refine congrArg₂ _ rfl ?_
  split
  · rfl
  · rw [List.map_append, List.map_append, hoperand .leftOperand, hoperand .rightOperand]

/-- The rows of a table of occurrences are accepted as the occurrences are. -/
theorem map_check_rawRow {records : List Csv.Row} {occurrences : List Occurrence}
    (h : records.map Csv.Row.fields = occurrences.map Occurrence.fields) :
    ((records.map rawRow).map fun raw => (RawRow.check (α := α) raw).toOption) =
      occurrences.map Occurrence.observation? := by
  have hrows : List.Forall₂ (fun row o => (RawRow.check (α := α) (rawRow row)).toOption =
      Occurrence.observation? o) records occurrences := by
    refine forall₂_of_fields h fun o _ row hrow => ?_
    have hraw : rawRow row = ⟨row.line, some o.block, some o.role.label, some o.token⟩ := by
      simp [rawRow, Csv.Row.field?, hrow, Occurrence.fields]
    rw [hraw, toOption_check]
    rfl
  rw [← List.forall₂_eq_eq_eq, List.forall₂_map_left_iff, List.forall₂_map_left_iff,
    List.forall₂_map_right_iff]
  exact hrows

/-! ### Skipping -/

theorem isSome_faultOf? {ε β : Type} (x : Except ε β) : (faultOf? x).isSome = x.toOption.isNone := by
  cases x <;> rfl

/-- **Skipping** keeps what the raw rows are accepted as and counts those that are not accepted. -/
theorem acceptRows_check_skip {rows : List RawRow} {occurrences : List Occurrence}
    (h : (rows.map fun raw => (RawRow.check (α := α) raw).toOption) =
      occurrences.map Occurrence.observation?) :
    acceptRows (α := α) .skip RawRow.check rows =
      .ok ⟨occurrences.filterMap Occurrence.observation?,
        occurrences.countP fun o => (Occurrence.observation? o).isNone⟩ := by
  have hrecoverable : ∀ row ∈ rows, ∀ fault, RawRow.check (α := α) row = .error fault →
      fault.isRecoverable = true := by
    intro row _ fault hfault
    obtain ⟨defect, rfl⟩ := malformed_of_check hfault
    rfl
  have hkept := congrArg (List.filterMap id) h
  have hcount := congrArg (List.countP Option.isNone) h
  simp only [List.filterMap_map, Function.id_comp] at hkept
  simp only [List.countP_map, Function.comp_def] at hcount
  rw [acceptRows_skip hrecoverable]
  simp only [isSome_faultOf?]
  rw [hkept, hcount]

/-! ### What a row of instructions leaves -/

theorem observation?_eq_none_iff {o : Occurrence} :
    o.observation? = none ↔ (Text.isBlank o.block || Text.isBlank o.token) = true := by
  rw [Occurrence.observation?]
  split
  · exact iff_of_true rfl ‹_›
  · exact iff_of_false nofun ‹_›

/-- Without a block nothing is observed. -/
theorem observation?_cellOf {table : Csv.Table} {row : Csv.Row}
    (h : Text.isBlank (cellText table row blockColumn) = true) (role : Role) :
    (cellOf table row role).observation? = none :=
  observation?_eq_none_iff.mpr (by rw [cellOf, h, Bool.true_or])

/-- An operand that is left out would not be observed. -/
theorem filterMap_operandOf (table : Csv.Table) (row : Csv.Row) (role : Role) :
    (operandOf table row role).filterMap Occurrence.observation? =
      [role].filterMap fun role => (cellOf table row role).observation? := by
  rw [operandOf]
  split
  · rename_i hblank
    have hnone : (cellOf table row role).observation? = none :=
      observation?_eq_none_iff.mpr (by rw [cellOf, hblank, Bool.or_true])
    exact (List.filterMap_cons_none hnone).symm
  · rfl

/-- **The observations of a row of instructions** are those of its cells, in the order of the roles. -/
theorem filterMap_occurrencesOf (table : Csv.Table) (row : Csv.Row) :
    (occurrencesOf table row).filterMap Occurrence.observation? =
      Role.all.filterMap fun role => (cellOf table row role).observation? := by
  rw [occurrencesOf]
  split
  · rename_i hblock
    simp [observation?_cellOf hblock]
  · have hroles : Role.all = [.instruction] ++ ([.leftOperand] ++ [.rightOperand]) := rfl
    rw [hroles, List.filterMap_append, List.filterMap_append,
      ← filterMap_operandOf table row .leftOperand, ← filterMap_operandOf table row .rightOperand,
      ← List.filterMap_append, ← List.singleton_append, List.filterMap_append]
    rfl

/-- Operands are listed only where they are observed. -/
theorem observation?_of_mem_operandOf {table : Csv.Table} {row : Csv.Row} {role : Role} {o : Occurrence}
    (hblock : ¬Text.isBlank (cellText table row blockColumn) = true) (h : o ∈ operandOf table row role) :
    (Occurrence.observation? o).isNone = false := by
  rw [operandOf] at h
  split at h
  · cases h
  · rename_i htoken
    rw [List.mem_singleton.mp h, Option.isNone_eq_false_iff, Option.isSome_iff_ne_none, ne_eq,
      observation?_eq_none_iff, Bool.or_eq_true, not_or]
    exact ⟨hblock, htoken⟩

/-- A row of instructions without a block or without a mnemonic. -/
def lacksRequired (table : Csv.Table) (row : Csv.Row) : Bool :=
  Text.isBlank (cellText table row blockColumn) ||
    Text.isBlank (cellText table row Role.instruction.label)

/-- **A row of instructions is skipped once at most**: if it lacks the block or the mnemonic. -/
theorem countP_occurrencesOf (table : Csv.Table) (row : Csv.Row) :
    (occurrencesOf table row).countP (fun o => (Occurrence.observation? o).isNone) =
      if lacksRequired table row then 1 else 0 := by
  have hmnemonic : (cellOf table row .instruction).observation?.isNone = lacksRequired table row := by
    rw [Bool.eq_iff_iff, Option.isNone_iff_eq_none, observation?_eq_none_iff]
    rfl
  rw [occurrencesOf, List.countP_cons, hmnemonic]
  split
  · rw [List.countP_nil, Nat.zero_add]
  · rename_i hblock
    have hoperands : (operandOf table row .leftOperand ++ operandOf table row .rightOperand).countP
        (fun o => (Occurrence.observation? o).isNone) = 0 := by
      refine List.countP_eq_zero.mpr fun o ho => ?_
      rw [Bool.not_eq_true]
      rcases List.mem_append.mp ho with ho | ho
      · exact observation?_of_mem_operandOf hblock ho
      · exact observation?_of_mem_operandOf hblock ho
    rw [hoperands, Nat.zero_add]

/-! ### Whole tables -/

/-- The observations of a table of instructions, row by row and role by role. -/
def observationsOf (table : Csv.Table) : List Observation :=
  table.records.flatMap fun row => Role.all.filterMap fun role => (cellOf table row role).observation?

/-- **Skipping the occurrences of a table** keeps its observations and counts the rows that lack something
required. -/
theorem acceptRows_occurrencesOf {table : Csv.Table} {rows : List RawRow}
    (h : (rows.map fun raw => (RawRow.check (α := α) raw).toOption) =
      (table.records.flatMap (occurrencesOf table)).map Occurrence.observation?) :
    acceptRows (α := α) .skip RawRow.check rows =
      .ok ⟨observationsOf table, table.records.countP (lacksRequired table)⟩ := by
  have hcount (records : List Csv.Row) :
      (records.flatMap (occurrencesOf table)).countP (fun o => (Occurrence.observation? o).isNone) =
        records.countP (lacksRequired table) := by
    induction records with
    | nil => rfl
    | cons row records ih =>
        rw [List.flatMap_cons, List.countP_append, countP_occurrencesOf, ih, List.countP_cons,
          Nat.add_comm]
  rw [acceptRows_check_skip h, hcount, List.filterMap_flatMap, observationsOf]
  simp only [filterMap_occurrencesOf]

end Ingest

namespace Analysis

open Ingest

variable {α : Type} [Scalar α] [ScalarText α]

/-- **Instructions are read as occurrences.** If malformed rows are skipped, a table with columns for the
block and the mnemonic is read like the table of the occurrences that its rows stand for, whatever lines
these are on: the profiles are those of the observations in its cells, and the rows without a block or
without a mnemonic are counted, each one once. -/
theorem loadProfiles_of_instructions (settings : Settings α) {table : Csv.Table}
    (hblock : (table.column? blockColumn).isSome)
    (hmnemonic : (table.column? Role.instruction.label).isSome) {records : List Csv.Row}
    (hrecords : records.map Csv.Row.fields =
      (table.records.flatMap (occurrencesOf table)).map Occurrence.fields) :
    loadProfiles { settings with inputKind := .disassembly, malformed := .skip } table =
        .ok (filtered settings (profilesOf (observationsOf table)),
          table.records.countP (lacksRequired table)) ∧
      loadProfiles { settings with inputKind := .occurrences, malformed := .skip }
          ⟨observationHeader, records⟩ =
        .ok (filtered settings (profilesOf (observationsOf table)),
          table.records.countP (lacksRequired table)) := by
  have hcolumns : missingColumn? table instructionColumns = none := by
    refine List.find?_eq_none.mpr fun name hname => ?_
    rw [instructionColumns, List.mem_cons, List.mem_singleton] at hname
    rw [Option.isNone_iff_eq_none, ← ne_eq, ← Option.isSome_iff_ne_none]
    rcases hname with rfl | rfl
    · exact hblock
    · exact hmnemonic
  have hraw : (table.records.flatMap (instructionRowsOf table)).map
      (fun raw => (RawRow.check (α := α) raw).toOption) =
        (table.records.flatMap (occurrencesOf table)).map Occurrence.observation? := by
    simp only [List.map_flatMap, map_check_instructionRowsOf]
  have hheader : occurrenceRows (α := α) ⟨observationHeader, records⟩ = .ok (records.map rawRow) :=
    occurrenceRows_of_columns [] records
  constructor
  · rw [loadProfiles, disassemblyRows_eq, hcolumns]
    dsimp only [bind, Except.bind]
    rw [acceptRows_occurrencesOf hraw]
    rfl
  · rw [loadProfiles, hheader]
    dsimp only [bind, Except.bind]
    rw [acceptRows_occurrencesOf (map_check_rawRow hrecords)]
    rfl

/-- Rows with an operand, without a mnemonic, with a blank block, too short, and with a blank operand. -/
def mixedInstructions : Csv.Table :=
  ⟨["Instruction", " block_id ", "Left Operand", "Note"],
    [⟨2, ["mov", " a ", "eax"]⟩, ⟨3, ["", "a", "ebx"]⟩, ⟨4, ["add", " ", "ecx", "x"]⟩,
      ⟨7, ["ret"]⟩, ⟨8, ["nop", "b", " "]⟩]⟩

/-- Three of these rows are skipped, and the operand of one of them is kept. -/
theorem loadProfiles_of_mixedInstructions :
    let records : List Csv.Row :=
      [⟨2, [" a ", "Instruction", "mov"]⟩, ⟨3, [" a ", "Left Operand", "eax"]⟩,
        ⟨4, ["a", "Instruction", ""]⟩, ⟨5, ["a", "Left Operand", "ebx"]⟩,
        ⟨6, [" ", "Instruction", "add"]⟩, ⟨7, ["", "Instruction", "ret"]⟩,
        ⟨8, ["b", "Instruction", "nop"]⟩]
    let profiles : Profiles Float := profilesOf
      [⟨⟨"a"⟩, .instruction, "mov"⟩, ⟨⟨"a"⟩, .leftOperand, "eax"⟩, ⟨⟨"a"⟩, .leftOperand, "ebx"⟩,
        ⟨⟨"b"⟩, .instruction, "nop"⟩]
    records.map Csv.Row.fields =
        (mixedInstructions.records.flatMap (occurrencesOf mixedInstructions)).map Occurrence.fields ∧
      loadProfiles { Settings.standard with inputKind := .disassembly, malformed := .skip }
          mixedInstructions = .ok (profiles, 3) ∧
      loadProfiles { Settings.standard with inputKind := .occurrences, malformed := .skip }
          ⟨observationHeader, records⟩ = .ok (profiles, 3) := by
  intro records profiles
  have hrecords : records.map Csv.Row.fields =
      (mixedInstructions.records.flatMap (occurrencesOf mixedInstructions)).map Occurrence.fields := by
    decide +kernel
  have hblock : (mixedInstructions.column? blockColumn).isSome := by decide +kernel
  have hmnemonic : (mixedInstructions.column? Role.instruction.label).isSome := by decide +kernel
  have hboth := loadProfiles_of_instructions (Settings.standard : Settings Float) hblock hmnemonic hrecords
  have hobservations : observationsOf mixedInstructions =
      [⟨⟨"a"⟩, .instruction, "mov"⟩, ⟨⟨"a"⟩, .leftOperand, "eax"⟩, ⟨⟨"a"⟩, .leftOperand, "ebx"⟩,
        ⟨⟨"b"⟩, .instruction, "nop"⟩] := by
    decide +kernel
  have hskipped : mixedInstructions.records.countP (lacksRequired mixedInstructions) = 3 := by
    decide +kernel
  rw [hobservations, hskipped] at hboth
  exact ⟨hrecords, hboth⟩

end Analysis

end BlockAffinity
