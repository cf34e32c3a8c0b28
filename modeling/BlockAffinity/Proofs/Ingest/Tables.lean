import BlockAffinity.Proofs.Csv.Rendering
import BlockAffinity.Proofs.Ingest.Policies

/-!
# BlockAffinity.Proofs.Ingest.Tables

**Observations survive being written as a table.** Texts that are not empty and have no blanks around
them (`Text.IsTrimmed`) are what checking a row asks for, so the rows of such observations all pass
and stand for them again (`loadProfiles_of_observationTable`).
-/

namespace BlockAffinity

/-- A text that is there and has no blanks around it. -/
def Text.IsTrimmed (s : String) : Prop := s ≠ "" ∧ Text.trim s = s

instance (s : String) : Decidable (Text.IsTrimmed s) := inferInstanceAs (Decidable (_ ∧ _))

theorem Text.IsTrimmed.isBlank_eq_false {s : String} (h : Text.IsTrimmed s) :
    Text.isBlank s = false := by
  rw [Bool.eq_false_iff]
  intro hblank
  have hnothing : (Text.trim s).toList = [] := by
    rw [Text.toList_trim, Text.trimChars_eq_nil_iff]
    exact hblank
  rw [h.2] at hnothing
  exact h.1 (String.toList_eq_nil_iff.mp hnothing)

/-- An observation whose texts a table keeps as they are. -/
def Observation.IsTrimmed (o : Observation) : Prop :=
  Text.IsTrimmed o.block.text ∧ Text.IsTrimmed o.token

instance (o : Observation) : Decidable o.IsTrimmed := inferInstanceAs (Decidable (_ ∧ _))

namespace Ingest

variable {α : Type}

/-! ### Rows that pass -/

theorem required_of_isTrimmed {text : String} (h : Text.IsTrimmed text) (line : Nat)
    (column : String) : required (α := α) line (some text) column = .ok text := by
  have hempty : text.isEmpty = false := by simpa using h.1
  rw [required, Option.getD_some, h.2, hempty]
  rfl

theorem ofText?_label (role : Role) : Role.ofText? role.label = some role := by
  cases role <;> decide +kernel

theorem isTrimmed_label (role : Role) : Text.IsTrimmed role.label := by
  cases role <;> decide +kernel

/-- The row of an observation stands for it. -/
theorem check_of_isTrimmed {o : Observation} (h : o.IsTrimmed) (line : Nat) :
    RawRow.check (α := α) ⟨line, some o.block.text, some o.role.label, some o.token⟩ = .ok o := by
  rw [RawRow.check, required_of_isTrimmed h.1, required_of_isTrimmed (isTrimmed_label _),
    required_of_isTrimmed h.2]
  dsimp only [bind, Except.bind]
  rw [ofText?_label]
  rfl

/-! ### The table of observations -/

/-- The header of a table of observations. -/
def observationHeader : List String := [blockColumn, roleColumn, tokenColumn]

/-- The fields of the row of an observation. -/
def observationFields (o : Observation) : List String := [o.block.text, o.role.label, o.token]

/-- Observations as the text of a table, one row for each. -/
def observationTable (observations : List Observation) : String :=
  Csv.writeRows (observationHeader :: observations.map observationFields)

/-- A table that begins with the column for the block has no byte order mark. -/
theorem head?_writeRows (columns : List String) (rows : List (List String)) :
    (Csv.writeRows ((blockColumn :: columns) :: rows)).toList.head? ≠ some '\ufeff' := by
  have hletters : Csv.fieldChars blockColumn.toList = 'B' :: "lock_ID".toList := by decide +kernel
  have hfirst : ∃ rest, Csv.rowChars (blockColumn :: columns) = 'B' :: rest := by
    cases columns with
    | nil => exact ⟨_, hletters⟩
    | cons next columns => exact ⟨_, by rw [Csv.rowChars, hletters, List.cons_append]; simp⟩
  obtain ⟨rest, hrest⟩ := hfirst
  rw [Csv.writeRows, List.map_cons, String.join_cons, String.toList_append, Csv.writeRow,
    String.toList_ofList, hrest, List.cons_append, List.cons_append, List.head?_cons]
  decide

/-- A row that begins with a trimmed text is not blank. -/
theorem all_isBlank_of_isTrimmed {text : String} (h : Text.IsTrimmed text) (fields : List String) :
    (text :: fields).all Text.isBlank = false := by
  rw [List.all_cons, h.isBlank_eq_false, Bool.false_and]

/-- **The table of observations is read back** row by row. -/
theorem readTable_observationTable {observations : List Observation}
    (h : ∀ o ∈ observations, o.IsTrimmed) :
    ∃ records, Csv.readTable (observationTable observations) =
        .ok ⟨observationHeader, records⟩ ∧
      records.map Csv.Row.fields = observations.map observationFields := by
  refine Csv.readTable_writeRows (fun fields hfields => ?_) (head?_writeRows _ _)
  rcases List.mem_cons.mp hfields with rfl | hfields
  · exact all_isBlank_of_isTrimmed (by decide +kernel) _
  · obtain ⟨o, ho, rfl⟩ := List.mem_map.mp hfields
    exact all_isBlank_of_isTrimmed (h o ho).1 _

/-- The raw row of a row of that table. -/
def rawRow (row : Csv.Row) : RawRow :=
  ⟨row.line, row.field? (some 0), row.field? (some 1), row.field? (some 2)⟩

/-- The three columns are found in front of any others. -/
theorem occurrenceRows_of_columns (columns : List String) (records : List Csv.Row) :
    occurrenceRows (α := α) ⟨observationHeader ++ columns, records⟩ = .ok (records.map rawRow) := by
  have hcolumn {name : String} {index : Nat}
      (h : observationHeader.findIdx? (Csv.namesColumn name) = some index) :
      (observationHeader ++ columns).findIdx? (Csv.namesColumn name) = some index := by
    rw [List.findIdx?_append, h]
    rfl
  have hblock : (observationHeader ++ columns).findIdx? (Csv.namesColumn blockColumn) = some 0 :=
    hcolumn (by decide +kernel)
  have hrole : (observationHeader ++ columns).findIdx? (Csv.namesColumn roleColumn) = some 1 :=
    hcolumn (by decide +kernel)
  have htoken : (observationHeader ++ columns).findIdx? (Csv.namesColumn tokenColumn) = some 2 :=
    hcolumn (by decide +kernel)
  simp only [occurrenceRows, requireColumn, Csv.Table.column?, hblock, hrole, htoken]
  rfl

/-- The raw row of a row that begins with the fields of an observation. -/
theorem rawRow_of_fields {row : Csv.Row} {o : Observation} {fields : List String}
    (h : row.fields = observationFields o ++ fields) :
    rawRow row = ⟨row.line, some o.block.text, some o.role.label, some o.token⟩ := by
  simp [rawRow, Csv.Row.field?, h, observationFields]

/-- Records that were written for values go with these values. -/
theorem forall₂_of_fields {β : Type} {write : β → List String} {related : Csv.Row → β → Prop}
    {records : List Csv.Row} {values : List β} (hrecords : records.map Csv.Row.fields = values.map write)
    (h : ∀ value ∈ values, ∀ row : Csv.Row, row.fields = write value → related row value) :
    List.Forall₂ related records values := by
  induction values generalizing records with
  | nil =>
      rw [List.map_nil, List.map_eq_nil_iff] at hrecords
      rw [hrecords]
      exact .nil
  | cons value values ih =>
      cases records with
      | nil => simp at hrecords
      | cons row records =>
          rw [List.map_cons, List.map_cons, List.cons.injEq] at hrecords
          exact .cons (h value List.mem_cons_self row hrecords.1)
            (ih hrecords.2 fun value hvalue => h value (List.mem_cons_of_mem _ hvalue))

/-- The rows of trimmed observations pass. -/
theorem forall₂_check {observations : List Observation} (h : ∀ o ∈ observations, o.IsTrimmed)
    {records : List Csv.Row}
    (hrecords : records.map Csv.Row.fields = observations.map observationFields) :
    List.Forall₂ (fun row o => RawRow.check (α := α) row = .ok o) (records.map rawRow)
      observations := by
  refine List.forall₂_map_left_iff.mpr (forall₂_of_fields hrecords fun o ho row hrow => ?_)
  have hraw := rawRow_of_fields (hrow.trans (List.append_nil _).symm)
  rw [hraw]
  exact check_of_isTrimmed (h o ho) row.line

/-- **Profiles from the table of observations** are those of the observations, and no row is
skipped. -/
theorem loadProfiles_of_observationTable [Scalar α] [ScalarText α] {settings : Settings α}
    (hkind : settings.inputKind = .occurrences) {observations : List Observation}
    {records : List Csv.Row} (h : ∀ o ∈ observations, o.IsTrimmed)
    (hrecords : records.map Csv.Row.fields = observations.map observationFields) :
    Analysis.loadProfiles settings ⟨observationHeader, records⟩ =
      .ok (Analysis.filtered settings (profilesOf observations), 0) := by
  have hrows := occurrenceRows_of_columns (α := α) [] records
  rw [List.append_nil] at hrows
  rw [Analysis.loadProfiles, hkind, hrows]
  dsimp only [bind, Except.bind]
  rw [acceptRows_eq_ok (forall₂_check h hrecords)]
  rfl

end Ingest

end BlockAffinity
