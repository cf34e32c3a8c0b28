import BlockAffinity.Csv.Reader
import BlockAffinity.Csv.Writer
import Mathlib.Tactic.Common

/-!
# BlockAffinity.Proofs.Csv.Rendering

**The reader undoes every rendering of a table.** A rendering chooses for each field whether it is
quoted, as far as its characters leave the choice, and for each row how its line ends
(`RendersField`, `RendersFields`, `RendersRows`). The written form of a table is one of them.

The reader is followed from one state to the next: through a field (`behind_field`), through the
fields of a row (`behind_fields`), over the end of a line (`foldl_lineEnd`) and so to the end of the
text (`finish_rows`). What carries the argument is `Reader.Behind`, which says of a state what has
been read since an earlier one, whether or not the last field was quoted. A table is then its first
row that is not blank and the others below it (`readTable_of_rendersRows`).
-/

namespace BlockAffinity.Csv

/-! ### Renderings -/

/-- A text that stands for a field. -/
inductive RendersField : List Char → List Char → Prop
  | quoted (field : List Char) : RendersField ('"' :: doubleQuotes field ++ ['"']) field
  | bare {field : List Char} (h : field.any needsQuotes = false) : RendersField field field

/-- A text that stands for the fields of a row. -/
inductive RendersFields : List Char → List String → Prop
  | none : RendersFields [] []
  | one {text : List Char} {field : String} (h : RendersField text field.toList) :
      RendersFields text [field]
  | more {text rest : List Char} {field : String} {fields : List String}
      (h : RendersField text field.toList) (hfields : fields ≠ []) (hrest : RendersFields rest fields) :
      RendersFields (text ++ ',' :: rest) (field :: fields)

/-- The end of a line. -/
inductive LineEnd : List Char → Prop
  | feed : LineEnd ['\n']
  | returnFeed : LineEnd ['\r', '\n']

/-- A text from some line on that stands for rows. The last row may lack the end of its line. -/
inductive RendersRows : Nat → List Char → List Row → Prop
  | none (line : Nat) : RendersRows line [] []
  | unended (line : Nat) {text : List Char} {fields : List String} (h : RendersFields text fields) :
      RendersRows line text [⟨line, fields⟩]
  | more (line : Nat) {text ending rest : List Char} {fields : List String} {rows : List Row}
      (h : RendersFields text fields) (hending : LineEnd ending)
      (hrest : RendersRows (line + text.count '\n' + 1) rest rows) :
      RendersRows line (text ++ ending ++ rest) (⟨line, fields⟩ :: rows)

namespace Reader

/-! ### Through a field -/

variable {r s : Reader}

/-- Characters that need no quotes belong to the field. -/
theorem foldl_step_bare (hmode : r.mode = .bare) {cs : List Char}
    (h : cs.any needsQuotes = false) :
    cs.foldl step r = { r with field := cs.reverse ++ r.field } := by
  induction cs generalizing r with
  | nil => rfl
  | cons c cs ih =>
      rw [List.any_cons, Bool.or_eq_false_iff] at h
      obtain ⟨hc, hcs⟩ := h
      simp only [needsQuotes, Bool.or_eq_false_iff, beq_eq_false_iff_ne, ne_eq] at hc
      obtain ⟨⟨⟨hcomma, hquote⟩, hfeed⟩, hreturn⟩ := hc
      have hstep : r.step c = { r.push c with mode := .bare } := by
        simp [step, stepBare, hmode, hcomma, hquote, hfeed, hreturn]
      rw [List.foldl_cons, hstep, ih rfl hcs, List.reverse_cons, List.append_assoc]
      simp [push, hmode]

/-- Inside quotes everything belongs to the field, two quotes as one. -/
theorem foldl_step_doubleQuotes (hmode : r.mode = .quoted) (cs : List Char) :
    (doubleQuotes cs).foldl step r =
      { r with field := cs.reverse ++ r.field, line := r.line + cs.count '\n' } := by
  induction cs generalizing r with
  | nil => rfl
  | cons c cs ih =>
      rw [doubleQuotes]
      split
      · rename_i hquote
        subst hquote
        have hstep : (r.step '"').step '"' = { r.push '"' with mode := .quoted } := by
          simp [step, stepQuoted, hmode, push]
        rw [List.foldl_cons, List.foldl_cons, hstep, ih rfl]
        simp [push, hmode]
      · rename_i hquote
        by_cases hfeed : c = '\n'
        · subst hfeed
          have hstep : r.step '\n' = { r with field := '\n' :: r.field, line := r.line + 1 } := by
            simp [step, stepQuoted, push, hmode]
          have hquoted : (r.step '\n').mode = .quoted := by rw [hstep, hmode]
          rw [List.foldl_cons, ih hquoted, hstep]
          simp [Nat.add_comm, Nat.add_left_comm]
        · have hstep : r.step c = r.push c := by
            simp [step, stepQuoted, hmode, hquote, hfeed]
          rw [List.foldl_cons, hstep, ih (show (r.push c).mode = _ from hmode)]
          simp [push, hfeed]

theorem count_doubleQuotes (cs : List Char) : (doubleQuotes cs).count '\n' = cs.count '\n' := by
  induction cs with
  | nil => rfl
  | cons c cs ih =>
      rw [doubleQuotes]
      split
      · rename_i hquote
        subst hquote
        simpa using ih
      · rw [List.count_cons, List.count_cons, ih]

/-! ### Through a row -/

/-- Since the state `r` the reader has read these fields on so many further lines, and stands behind
the last of them. -/
structure Behind (r : Reader) (fields : List String) (further : Nat) (s : Reader) : Prop where
  rows : s.rows = r.rows
  start : s.start = r.start
  line : s.line = r.line + further
  fields : s.endField.fields = fields.reverse ++ r.fields
  settled : s.mode = .bare ∨ s.mode = .closing

/-- A reader at the beginning of a field. -/
def AtField (r : Reader) : Prop := r.mode = .bare ∧ r.field = []

/-- Behind a field everything but a quote is taken as outside quotes. -/
theorem step_of_settled (h : s.mode = .bare ∨ s.mode = .closing) {c : Char} (hc : c ≠ '"') :
    s.step c = s.stepBare c := by
  rcases h with h | h
  · simp [step, h]
  · simp [step, h, hc]

theorem behind_field (hr : r.AtField) {text field : List Char} (h : RendersField text field) :
    Behind r [String.ofList field] (text.count '\n') (text.foldl step r) := by
  obtain ⟨hmode, hfield⟩ := hr
  cases h with
  | bare h =>
      rw [foldl_step_bare hmode h, hfield, List.append_nil]
      have hcount : text.count '\n' = 0 := by
        refine List.count_eq_zero.mpr fun hmem => ?_
        exact List.any_eq_false.mp h _ hmem rfl
      exact ⟨rfl, rfl, by rw [hcount]; rfl, by simp [endField], .inl hmode⟩
  | quoted =>
      have hopen : r.step '"' = { r with mode := .quoted } := by
        simp [step, stepBare, hmode, hfield]
      rw [List.cons_append, List.foldl_cons, hopen, List.foldl_append,
        foldl_step_doubleQuotes rfl]
      refine ⟨rfl, rfl, ?_, ?_, .inr rfl⟩
      · show r.line + _ = r.line + _
        simp [count_doubleQuotes]
      · simp [step, stepQuoted, endField, hfield]

/-- A comma ends the field before it. -/
theorem Behind.step_comma {fields : List String} {further : Nat} (h : Behind r fields further s) :
    s.step ',' = ⟨r.rows, fields.reverse ++ r.fields, [], .bare, r.line + further, r.start⟩ := by
  rw [step_of_settled h.settled (by decide), ← h.fields, ← h.rows, ← h.start, ← h.line]
  simp [stepBare, endField]

/-- The fields that a row of no fields is read as. -/
def shown : List String → List String
  | [] => [""]
  | fields => fields

/-- **Through the fields of a row.** -/
theorem behind_fields (hr : r.AtField) {text : List Char} {fields : List String}
    (h : RendersFields text fields) :
    Behind r (shown fields) (text.count '\n') (text.foldl step r) := by
  induction h generalizing r with
  | none => exact ⟨rfl, rfl, rfl, by simp [endField, shown, hr.2], .inl hr.1⟩
  | one h => simpa [shown] using behind_field hr h
  | @more text rest field fields h hfields _ ih =>
      have hfield := behind_field hr h
      rw [String.ofList_toList] at hfield
      rw [List.foldl_append, List.foldl_cons, hfield.step_comma]
      obtain ⟨hrows, hstart, hline, hread, hsettled⟩ := @ih
        ⟨r.rows, [field].reverse ++ r.fields, [], .bare, r.line + text.count '\n', r.start⟩ ⟨rfl, rfl⟩
      refine ⟨hrows, hstart, ?_, ?_, hsettled⟩
      · rw [hline]
        simp [Nat.add_assoc]
      · rw [hread]
        cases fields with
        | nil => exact absurd rfl hfields
        | cons next fields => simp [shown]

/-! ### Through the text -/

/-- A reader at the beginning of a row on a line, with these rows behind it. -/
def atRow (rows : List Row) (line : Nat) : Reader := ⟨rows, [], [], .bare, line, line⟩

theorem atField_atRow (rows : List Row) (line : Nat) : (atRow rows line).AtField := ⟨rfl, rfl⟩

theorem isBlank_shown (line : Nat) (fields : List String) :
    (⟨line, shown fields⟩ : Row).isBlank = (⟨line, fields⟩ : Row).isBlank := by
  cases fields with
  | nil => rfl
  | cons field fields => rfl

/-- A row that is not blank comes on top of those before it. -/
theorem Behind.rowsWithCurrent {rows : List Row} {line further : Nat} {fields : List String}
    (h : Behind (atRow rows line) (shown fields) further s) :
    s.rowsWithCurrent.reverse = rows.reverse ++ [⟨line, fields⟩].filter fun row => !row.isBlank := by
  have hrow : s.row = ⟨line, shown fields⟩ := by
    rw [row, h.fields, h.start]
    simp [atRow]
  rw [Reader.rowsWithCurrent, hrow, isBlank_shown, h.rows]
  by_cases hblank : (⟨line, fields⟩ : Row).isBlank = true
  · simp [hblank, atRow]
  · cases fields with
    | nil => exact absurd rfl hblank
    | cons field fields => simp [hblank, atRow, shown]

/-- **Over the end of a line** to the beginning of the next row. -/
theorem Behind.foldl_lineEnd {rows : List Row} {line further : Nat} {fields : List String}
    (h : Behind (atRow rows line) (shown fields) further s) {ending : List Char}
    (hending : LineEnd ending) :
    ending.foldl step s = atRow s.rowsWithCurrent (line + further + 1) := by
  have hend : s.endRow = atRow s.rowsWithCurrent (line + further + 1) := by
    rw [endRow, h.line]
    rfl
  cases hending with
  | feed =>
      rw [List.foldl_cons, step_of_settled h.settled (by decide), ← hend]
      simp [stepBare]
  | returnFeed =>
      rw [List.foldl_cons, step_of_settled h.settled (by decide), ← hend]
      simp [stepBare, step, endRow, Reader.rowsWithCurrent, Reader.row, endField]

/-- At the end of the text a row that has begun counts. -/
theorem Behind.finish_eq {rows : List Row} {line further : Nat} {fields : List String}
    (h : Behind (atRow rows line) (shown fields) further s) :
    s.finish = .ok (rows.reverse ++ [⟨line, fields⟩].filter fun row => !row.isBlank) := by
  have hquoted : s.mode ≠ .quoted := by
    rcases h.settled with hs | hs <;> simp [hs]
  have hcarriage : s.mode ≠ .carriage := by
    rcases h.settled with hs | hs <;> simp [hs]
  rw [finish, if_neg hquoted, settle, if_neg hcarriage]
  show Except.ok _ = _
  rw [← h.rowsWithCurrent]
  split
  · rename_i hnothing
    -- the row that has not begun is the empty one, which is blank
    have hrow : s.row.isBlank = true := by
      simp [Reader.row, endField, hnothing, Row.isBlank, Text.isBlank]
    rw [Reader.rowsWithCurrent, if_pos hrow]
  · rfl

/-- **The rows of a rendering** are read as they are, the blank ones left out. -/
theorem finish_rows {line : Nat} {text : List Char} {rows : List Row}
    (h : RendersRows line text rows) (before : List Row) :
    (text.foldl step (atRow before line)).finish =
      .ok (before.reverse ++ rows.filter fun row => !row.isBlank) := by
  induction h generalizing before with
  | none line => simp [atRow, finish, settle]
  | unended line h => exact (behind_fields (atField_atRow before line) h).finish_eq
  | more line h hending _ ih =>
      have hbehind := behind_fields (atField_atRow before line) h
      rw [List.foldl_append, List.foldl_append, hbehind.foldl_lineEnd hending, ih,
        hbehind.rowsWithCurrent, List.append_assoc, ← List.filter_append, List.singleton_append]

end Reader

/-- A text that does not begin with a byte order mark is taken whole. -/
theorem afterMark_of_head? {text : List Char} (hmark : text.head? ≠ some '\ufeff') :
    afterMark text = text := by
  cases text with
  | nil => rfl
  | cons c rest => exact if_neg fun hc => hmark (by rw [hc]; rfl)

/-- **A rendering is read back**: the rows that are not blank, on their lines. -/
theorem readRows_of_rendersRows {text : List Char} {rows : List Row}
    (h : RendersRows 1 text rows) (hmark : text.head? ≠ some '\ufeff') :
    readRows text = .ok (rows.filter fun row => !row.isBlank) := by
  rw [readRows, afterMark_of_head? hmark]
  exact Reader.finish_rows h []

/-! ### What is written -/

theorem rendersField_fieldChars (field : List Char) : RendersField (fieldChars field) field := by
  rw [fieldChars]
  split
  · exact .quoted field
  · rename_i h
    exact .bare (by simpa using h)

theorem rendersFields_rowChars (fields : List String) : RendersFields (rowChars fields) fields := by
  induction fields with
  | nil => exact .none
  | cons field fields ih =>
      cases fields with
      | nil => exact .one (rendersField_fieldChars _)
      | cons next fields =>
          exact .more (rendersField_fieldChars _) (List.cons_ne_nil _ _) ih

/-- **What is written is a rendering** of the rows that were written. -/
theorem exists_rendersRows_writeRows (line : Nat) (table : List (List String)) :
    ∃ rows, RendersRows line (writeRows table).toList rows ∧ rows.map Row.fields = table := by
  induction table generalizing line with
  | nil => exact ⟨[], .none line, rfl⟩
  | cons fields table ih =>
      obtain ⟨rows, hrows, hfields⟩ := ih (line + (rowChars fields).count '\n' + 1)
      refine ⟨⟨line, fields⟩ :: rows, ?_, by rw [List.map_cons, hfields]⟩
      have hwritten : (writeRows (fields :: table)).toList =
          rowChars fields ++ ['\n'] ++ (writeRows table).toList := by
        simp [writeRows, writeRow]
      rw [hwritten]
      exact .more line (rendersFields_rowChars fields) .feed hrows

/-- **A written table is read back**, if none of its rows is blank. -/
theorem readTable_writeRows {header : List String} {rows : List (List String)}
    (hfilled : ∀ fields ∈ header :: rows, fields.all Text.isBlank = false)
    (hmark : (writeRows (header :: rows)).toList.head? ≠ some '\ufeff') :
    ∃ records, readTable (writeRows (header :: rows)) = .ok ⟨header, records⟩ ∧
      records.map Row.fields = rows := by
  obtain ⟨written, hwritten, hfields⟩ := exists_rendersRows_writeRows 1 (header :: rows)
  have hkept : written.filter (fun row => !row.isBlank) = written := by
    rw [List.filter_eq_self]
    intro row hrow
    have hmem := List.mem_map_of_mem (f := Row.fields) hrow
    rw [hfields] at hmem
    rw [Row.isBlank, hfilled _ hmem]
    rfl
  cases written with
  | nil => simp at hfields
  | cons first records =>
      rw [List.map_cons, List.cons.injEq] at hfields
      obtain ⟨rfl, hrecords⟩ := hfields
      refine ⟨records, ?_, hrecords⟩
      rw [readTable, readRows_of_rendersRows hwritten hmark, hkept]
      rfl

/-! ### Tables -/

theorem LineEnd.count_eq {ending : List Char} (h : LineEnd ending) : ending.count '\n' = 1 := by
  cases h <;> rfl

/-- **The line of a row** is the line of the first one and the line feeds between them. -/
theorem RendersRows.exists_before {line : Nat} {text : List Char} {rows before after : List Row}
    {row : Row} (h : RendersRows line text rows) (hrows : rows = before ++ row :: after) :
    ∃ head rest, text = head ++ rest ∧ RendersRows line head before ∧
      RendersRows row.line rest (row :: after) ∧ row.line = line + head.count '\n' := by
  induction h generalizing before with
  | none line => simp at hrows
  | @unended line text fields h =>
      obtain ⟨rfl, hrow⟩ : before = [] ∧ [⟨line, fields⟩] = row :: after := by
        cases before with
        | nil => exact ⟨rfl, hrows⟩
        | cons first before => simp at hrows
      rw [← hrow]
      obtain ⟨rfl, rfl⟩ := List.cons.inj hrow
      exact ⟨[], text, rfl, .none line, .unended line h, rfl⟩
  | @more line text ending rest fields rows h hending hrest ih =>
      cases before with
      | nil =>
          obtain ⟨rfl, rfl⟩ := List.cons.inj hrows
          exact ⟨[], text ++ ending ++ rest, rfl, .none line, .more line h hending hrest, rfl⟩
      | cons first before =>
          obtain ⟨rfl, hlater⟩ := List.cons.inj hrows
          obtain ⟨head, tail, rfl, hhead, htail, hline⟩ := ih hlater
          refine ⟨text ++ ending ++ head, tail, (List.append_assoc _ _ _).symm,
            .more line h hending hhead, htail, ?_⟩
          rw [hline, List.count_append, List.count_append, hending.count_eq]
          omega

/-- A row is blank if nothing is left of its fields once they are trimmed. -/
theorem Row.isBlank_eq (row : Row) :
    (!row.isBlank) = row.fields.any fun field => decide (Text.trim field ≠ "") := by
  rw [Row.isBlank, List.not_all_eq_any_not]
  refine congrArg (List.any row.fields) (funext fun field => ?_)
  have hblank : Text.isBlank field = true ↔ Text.trim field = "" := by
    rw [Text.isBlank, ← Text.trimChars_eq_nil_iff, ← Text.toList_trim, String.toList_eq_nil_iff]
  rw [Bool.eq_iff_iff, Bool.not_eq_true', decide_eq_true_eq, ne_eq, ← hblank, Bool.not_eq_true]

/-- **Reading undoes every rendering**, with a byte order mark in front of it or without: the first
row with a field that is not blank is the header, and the others with such a field follow it in
order, on the lines on which they begin. What is written is such a rendering. -/
theorem readTable_of_rendersRows {body : List Char} {rows : List Row} (h : RendersRows 1 body rows)
    (mark : Bool) (hmark : mark = false → body.head? ≠ some '\ufeff') :
    (∃ table, readTable (String.ofList (if mark then '\ufeff' :: body else body)) = .ok table ∧
      match rows.filter fun row => row.fields.any fun field => decide (Text.trim field ≠ "") with
      | [] => table = ⟨[], []⟩
      | header :: records => table.headers = header.fields ∧ table.records = records) ∧
    (∀ before row after, rows = before ++ row :: after →
      ∃ head rest, body = head ++ rest ∧ RendersRows 1 head before ∧
        RendersRows row.line rest (row :: after) ∧ row.line = 1 + head.count '\n') ∧
    ∀ table, ∃ written, RendersRows 1 (writeRows table).toList written ∧
      written.map Row.fields = table := by
  refine ⟨?_, fun before row after hrows => h.exists_before hrows,
    exists_rendersRows_writeRows 1⟩
  have hread : readRows (if mark then '\ufeff' :: body else body) =
      .ok (rows.filter fun row => !row.isBlank) := by
    cases mark with
    | false => exact readRows_of_rendersRows h (hmark rfl)
    | true => exact Reader.finish_rows h []
  refine ⟨.ofRows (rows.filter fun row => !row.isBlank), ?_, ?_⟩
  · rw [readTable, String.toList_ofList, hread]
    rfl
  · simp only [Row.isBlank_eq]
    split
    · rename_i hnone
      rw [hnone, Table.ofRows]
    · rename_i header records hsome
      rw [hsome]
      exact ⟨rfl, rfl⟩

/-- A byte order mark, both line ends, a blank row, a field over two lines with quotes in it and a
last row that is not ended. -/
theorem readTable_mixedRendering :
    let body := ("id".toList ++ ',' :: "note".toList) ++ ['\r', '\n'] ++
      (([] ++ ',' :: " ".toList) ++ ['\n'] ++
        (("1".toList ++ ',' :: ('"' :: doubleQuotes "two\nlines, \"q\"".toList ++ ['"'])) ++
          ['\r', '\n'] ++ ("2".toList ++ ',' :: ('"' :: doubleQuotes [] ++ ['"']))))
    let rows : List Row := [⟨1, ["id", "note"]⟩, ⟨2, ["", " "]⟩, ⟨3, ["1", "two\nlines, \"q\""]⟩,
      ⟨5, ["2", ""]⟩]
    String.ofList body = "id,note\r\n, \n1,\"two\nlines, \"\"q\"\"\"\r\n2,\"\"" ∧
    RendersRows 1 body rows ∧
    readTable (String.ofList ('\ufeff' :: body)) =
      .ok ⟨["id", "note"], [⟨3, ["1", "two\nlines, \"q\""]⟩, ⟨5, ["2", ""]⟩]⟩ := by
  intro body rows
  have hpair {text text' : List Char} {field field' : String} (h : RendersField text field.toList)
      (h' : RendersField text' field'.toList) :
      RendersFields (text ++ ',' :: text') [field, field'] :=
    .more h (List.cons_ne_nil _ _) (.one h')
  have hrows : RendersRows 1 body rows :=
    .more 1 (hpair (.bare (by decide)) (.bare (by decide))) .returnFeed <|
      .more 2 (hpair (.bare (by decide)) (.bare (by decide))) .feed <|
        .more 3 (hpair (.bare (by decide)) (.quoted _)) .returnFeed <|
          .unended 5 (hpair (.bare (by decide)) (.quoted _))
  obtain ⟨⟨table, hread, htable⟩, -⟩ := readTable_of_rendersRows hrows true (by simp)
  refine ⟨by decide +kernel, hrows, ?_⟩
  have hfilled : (rows.filter fun row =>
        row.fields.any fun field => decide (Text.trim field ≠ "")) =
      [⟨1, ["id", "note"]⟩, ⟨3, ["1", "two\nlines, \"q\""]⟩, ⟨5, ["2", ""]⟩] := by
    decide +kernel
  rw [hfilled] at htable
  obtain ⟨headers, records⟩ := table
  obtain ⟨rfl, rfl⟩ := htable
  exact hread

end BlockAffinity.Csv
