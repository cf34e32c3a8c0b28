import BlockAffinity.Proofs.Csv.Rendering

/-!
# BlockAffinity.Proofs.Csv.Concatenation

**Tables are read piece by piece.** If a text that can be read ends with a line feed, what follows
it is read as a text of its own, and only its lines are counted from further down
(`readRows_append`). This holds of every text, malformed ones included.

There are two halves to it:

* Where a row ends nothing is left behind. A line feed outside quotes ends the row whatever came
  before it, and inside quotes the text cannot end (`step_cases`), so a text that can be read and
  ends with a line feed leaves the reader at the beginning of a row (`foldl_step_lineFeed`).
* The reader never looks at the rows behind it or at the number of a line, so every state can be
  moved down and put behind other rows (`Reader.below`), and each step commutes with that.

The rows that have been finished stand on earlier and earlier lines and none of them is blank
(`Reader.Ordered`).
-/

namespace BlockAffinity.Csv

/-- The row, counted from so many lines further down. -/
def Row.below (offset : Nat) (row : Row) : Row := { row with line := row.line + offset }

namespace Reader

variable {r s : Reader}

/-! ### What a step can do -/

/-- **A step** either ends the row, at a line feed outside quotes, or stays within it. -/
theorem step_cases (r : Reader) (c : Char) :
    (c = '\n' ∧ r.mode ≠ .quoted ∧ r.step c = r.endRow) ∨
      ((c = '\n' → (r.step c).mode = .quoted) ∧ (r.step c).rows = r.rows ∧
        (r.step c).start = r.start ∧ (r.step c).line = r.line + if c = '\n' then 1 else 0) := by
  have hbare (s : Reader) (hc : c ≠ '\n') : (s.stepBare c).rows = s.rows ∧
      (s.stepBare c).start = s.start ∧ (s.stepBare c).line = s.line := by
    simp only [stepBare, if_neg hc]
    repeat' split
    all_goals exact ⟨rfl, rfl, rfl⟩
  by_cases hc : c = '\n'
  · subst hc
    cases hmode : r.mode with
    | bare => exact .inl ⟨rfl, by simp, by simp [step, hmode, stepBare]⟩
    | closing => exact .inl ⟨rfl, by simp, by simp [step, hmode, stepBare]⟩
    | carriage => exact .inl ⟨rfl, by simp, by simp [step, hmode]⟩
    | quoted => exact .inr (by simp [step, hmode, stepQuoted, push])
  · refine .inr ⟨fun h => absurd h hc, ?_⟩
    rw [if_neg hc, Nat.add_zero]
    cases hmode : r.mode with
    | bare => simpa only [step, hmode] using hbare r hc
    | quoted =>
        simp only [step, hmode, stepQuoted, if_neg hc]
        split <;> exact ⟨rfl, rfl, rfl⟩
    | closing =>
        simp only [step, hmode]
        split
        · exact ⟨rfl, rfl, rfl⟩
        · exact hbare r hc
    | carriage =>
        simp only [step, hmode, if_neg hc]
        exact hbare (r.push '\r') hc

/-- Every line feed counts, whether or not it ends a row. -/
theorem line_foldl_step (r : Reader) (cs : List Char) :
    (cs.foldl step r).line = r.line + cs.count '\n' := by
  induction cs generalizing r with
  | nil => rfl
  | cons c cs ih =>
      have hstep : (r.step c).line = r.line + if c = '\n' then 1 else 0 := by
        rcases r.step_cases c with ⟨rfl, -, hend⟩ | ⟨-, -, -, hline⟩
        · rw [hend]
          rfl
        · exact hline
      rw [List.foldl_cons, ih, hstep, List.count_cons, Nat.add_assoc, Nat.add_comm (cs.count _)]
      simp

/-- Only an open quote keeps a text from being read. -/
theorem finish_eq_ok_iff : (∃ rows, r.finish = .ok rows) ↔ r.mode ≠ .quoted := by
  rw [finish]
  split <;> simp [*]

theorem finish_atRow (rows : List Row) (line : Nat) :
    (atRow rows line).finish = .ok rows.reverse := by
  simp [atRow, finish, settle]

/-- **Nothing is left behind.** A text that can be read and ends with a line feed leaves the reader
at the beginning of a row, behind the rows that were read. -/
theorem foldl_step_lineFeed {cs : List Char} {rows : List Row}
    (h : ((cs ++ ['\n']).foldl step r).finish = .ok rows) :
    (cs ++ ['\n']).foldl step r = atRow rows.reverse (r.line + (cs ++ ['\n']).count '\n') := by
  have hline := line_foldl_step r (cs ++ ['\n'])
  rw [List.foldl_append, List.foldl_cons, List.foldl_nil] at h hline ⊢
  rcases (cs.foldl step r).step_cases '\n' with ⟨-, -, hend⟩ | ⟨hquoted, -⟩
  · have hrow : (cs.foldl step r).endRow =
        atRow (cs.foldl step r).rowsWithCurrent ((cs.foldl step r).line + 1) := rfl
    rw [hend, hrow] at h hline ⊢
    rw [finish_atRow, Except.ok.injEq] at h
    rw [← hline, ← h, List.reverse_reverse]
    rfl
  · exact absurd (hquoted rfl) (finish_eq_ok_iff.mp ⟨rows, h⟩)

/-! ### Further down, behind other rows -/

/-- The reader as it stands so many lines further down, if these rows were finished before. -/
def below (before : List Row) (offset : Nat) (r : Reader) : Reader :=
  { r with
    rows := r.rows.map (Row.below offset) ++ before
    line := r.line + offset
    start := r.start + offset }

variable (before : List Row) (offset : Nat)

theorem isBlank_below (row : Row) : (row.below offset).isBlank = row.isBlank := rfl

theorem rowsWithCurrent_below (r : Reader) :
    (r.below before offset).rowsWithCurrent =
      r.rowsWithCurrent.map (Row.below offset) ++ before := by
  have hrow : (r.below before offset).row = r.row.below offset := rfl
  rw [rowsWithCurrent, rowsWithCurrent, hrow, isBlank_below]
  split <;> rfl

theorem endRow_below (r : Reader) :
    (r.below before offset).endRow = r.endRow.below before offset := by
  rw [endRow, rowsWithCurrent_below]
  simp only [endRow, below, Nat.add_right_comm _ offset 1]

theorem stepBare_below (r : Reader) (c : Char) :
    (r.below before offset).stepBare c = (r.stepBare c).below before offset := by
  simp only [stepBare, endRow_below, apply_ite (below before offset)]
  rfl

theorem step_below (r : Reader) (c : Char) :
    (r.below before offset).step c = (r.step c).below before offset := by
  have hmode : (r.below before offset).mode = r.mode := rfl
  simp only [step, hmode]
  cases r.mode with
  | bare => exact stepBare_below before offset r c
  | quoted =>
      simp only [stepQuoted, apply_ite (below before offset)]
      simp [below, push, Nat.add_right_comm _ offset 1]
  | closing =>
      simp only [apply_ite (below before offset), stepBare_below]
      rfl
  | carriage =>
      simp only [endRow_below, apply_ite (below before offset)]
      exact congrArg (ite _ _) (stepBare_below before offset (r.push '\r') c)

/-- **The reader never looks back**, neither at the finished rows nor at the number of a line. -/
theorem foldl_step_below (r : Reader) (cs : List Char) :
    cs.foldl step (r.below before offset) = (cs.foldl step r).below before offset := by
  induction cs generalizing r with
  | nil => rfl
  | cons c cs ih => rw [List.foldl_cons, List.foldl_cons, step_below, ih]

theorem settle_below (r : Reader) :
    (r.below before offset).settle = r.settle.below before offset := by
  simp only [settle, apply_ite (below before offset)]
  rfl

theorem finish_below (r : Reader) :
    (r.below before offset).finish = match r.finish with
      | .ok rows => .ok (before.reverse ++ rows.map (Row.below offset))
      | .error fault => .error ⟨fault.line + offset⟩ := by
  have hmode : (r.below before offset).mode = r.mode := rfl
  rw [finish, finish, hmode]
  split
  · rfl
  · have hfield (s : Reader) : (s.below before offset).field = s.field := rfl
    have hfields (s : Reader) : (s.below before offset).fields = s.fields := rfl
    simp only [settle_below, hfield, hfields, rowsWithCurrent_below]
    split <;> simp [below]

/-! ### The finished rows -/

/-- The finished rows stand on earlier and earlier lines, above the current row, and none of them is
blank. -/
structure Ordered (r : Reader) : Prop where
  descending : r.rows.Pairwise fun later earlier => earlier.line < later.line
  above : ∀ row ∈ r.rows, row.line < r.start
  start_le : r.start ≤ r.line
  filled : ∀ row ∈ r.rows, row.isBlank = false

theorem Ordered.within (h : r.Ordered) (hrows : s.rows = r.rows) (hstart : s.start = r.start)
    (hline : r.line ≤ s.line) : s.Ordered where
  descending := hrows ▸ h.descending
  above := by rw [hrows, hstart]; exact h.above
  start_le := by rw [hstart]; exact Nat.le_trans h.start_le hline
  filled := hrows ▸ h.filled

/-- The current row is below the finished ones and comes on top of them unless it is blank. -/
theorem Ordered.endRow (h : r.Ordered) : r.endRow.Ordered := by
  have hrows : r.endRow.rows = if r.row.isBlank then r.rows else r.row :: r.rows := rfl
  have hstart : r.start < r.endRow.start := Nat.lt_succ_of_le h.start_le
  cases hblank : r.row.isBlank with
  | true =>
      rw [hblank, if_pos rfl] at hrows
      exact ⟨hrows ▸ h.descending, fun row hrow => Nat.lt_trans (h.above row (hrows ▸ hrow)) hstart,
        Nat.le_refl _, hrows ▸ h.filled⟩
  | false =>
      rw [hblank, if_neg Bool.false_ne_true] at hrows
      refine ⟨?_, ?_, Nat.le_refl _, ?_⟩
      · rw [hrows, List.pairwise_cons]
        exact ⟨h.above, h.descending⟩
      · rw [hrows, List.forall_mem_cons]
        exact ⟨hstart, fun row hrow => Nat.lt_trans (h.above row hrow) hstart⟩
      · rw [hrows, List.forall_mem_cons]
        exact ⟨hblank, h.filled⟩

theorem Ordered.step (h : r.Ordered) (c : Char) : (r.step c).Ordered := by
  rcases r.step_cases c with ⟨-, -, hend⟩ | ⟨-, hrows, hstart, hline⟩
  · rw [hend]
    exact h.endRow
  · exact h.within hrows hstart (hline ▸ Nat.le_add_right _ _)

theorem Ordered.foldl_step (h : r.Ordered) (cs : List Char) : (cs.foldl Reader.step r).Ordered := by
  induction cs generalizing r with
  | nil => exact h
  | cons c cs ih => exact ih (h.step c)

theorem ordered_initial : initial.Ordered :=
  ⟨.nil, by simp [initial], Nat.le_refl _, by simp [initial]⟩

/-- The rows are the finished ones, and the current one is ended like the others. -/
theorem Ordered.of_finish (h : r.Ordered) {rows : List Row} (hfinish : r.finish = .ok rows) :
    rows.Pairwise (fun earlier later => earlier.line < later.line) ∧
      ∀ row ∈ rows, row.isBlank = false := by
  have hsettle : r.settle.Ordered := by
    rw [settle]
    split
    · exact h.within rfl rfl (Nat.le_refl _)
    · exact h
  have hrows : ∃ s : Reader, s.Ordered ∧ rows = s.rows.reverse := by
    rw [finish] at hfinish
    split at hfinish
    · cases hfinish
    · rw [Except.ok.injEq] at hfinish
      split at hfinish
      · exact ⟨_, hsettle, hfinish.symm⟩
      · exact ⟨_, hsettle.endRow, hfinish.symm⟩
  obtain ⟨s, hs, rfl⟩ := hrows
  exact ⟨List.pairwise_reverse.mpr hs.descending, fun row hrow =>
    hs.filled row (List.mem_reverse.mp hrow)⟩

end Reader

/-! ### Texts -/

/-- A byte order mark is looked for in the first text only. -/
theorem afterMark_append {head : List Char} (h : head ≠ []) (tail : List Char) :
    afterMark (head ++ tail) = afterMark head ++ tail := by
  obtain ⟨c, rest, rfl⟩ := List.exists_cons_of_ne_nil h
  rw [List.cons_append, afterMark, afterMark]
  split <;> rfl

/-- A byte order mark leaves the last line and the number of lines as they are. -/
theorem exists_afterMark_eq {head : List Char} (h : head.getLast? = some '\n') :
    ∃ front, afterMark head = front ++ ['\n'] ∧ (front ++ ['\n']).count '\n' = head.count '\n' := by
  obtain ⟨front, rfl⟩ := List.getLast?_eq_some_iff.mp h
  cases front with
  | nil => exact ⟨[], rfl, rfl⟩
  | cons c front =>
      rw [List.cons_append, afterMark]
      split
      · rename_i hmark
        exact ⟨front, rfl, by rw [hmark]; simp⟩
      · exact ⟨c :: front, rfl, rfl⟩

/-- A reader that stands at the beginning of a row is the initial one, further down. -/
theorem readRows_from (before : List Row) (offset : Nat) {text : List Char}
    (hmark : text.head? ≠ some '\ufeff') :
    (text.foldl Reader.step (Reader.atRow before (1 + offset))).finish =
      match readRows text with
      | .ok rows => .ok (before.reverse ++ rows.map (Row.below offset))
      | .error fault => .error ⟨fault.line + offset⟩ := by
  have hstart : Reader.atRow before (1 + offset) = Reader.initial.below before offset := rfl
  rw [hstart, Reader.foldl_step_below, Reader.finish_below, readRows, afterMark_of_head? hmark]

/-- **Tables are read piece by piece.** If a text can be read and ends with a line feed, what follows
it is read as a text of its own whose lines are counted from further down, and a quoted field that it
does not close is reported in the same way. Of any text that can be read, the rows stand on later and
later lines, and each has a field that is not blank. -/
theorem readRows_append {head tail : List Char} {rows : List Row}
    (hread : readRows head = .ok rows) (hend : head.getLast? = some '\n')
    (hmark : tail.head? ≠ some '\ufeff') :
    (readRows (head ++ tail) = match readRows tail with
      | .ok later => .ok (rows ++ later.map (Row.below (head.count '\n')))
      | .error fault => .error ⟨fault.line + head.count '\n'⟩) ∧
    ∀ text rows, readRows text = .ok rows →
      rows.Pairwise (fun earlier later => earlier.line < later.line) ∧
        ∀ row ∈ rows, ∃ field ∈ row.fields, Text.trim field ≠ "" := by
  constructor
  · have hne : head ≠ [] := by
      rintro rfl
      cases hend
    obtain ⟨front, hfront, hcount⟩ := exists_afterMark_eq hend
    rw [readRows, hfront] at hread
    have hbehind := Reader.foldl_step_lineFeed hread
    rw [readRows, afterMark_append hne, List.foldl_append, hfront, hbehind, hcount]
    have htail := readRows_from rows.reverse (head.count '\n') hmark
    rw [List.reverse_reverse] at htail
    exact htail
  · intro text rows hread
    obtain ⟨hlines, hfilled⟩ :=
      (Reader.ordered_initial.foldl_step (afterMark text)).of_finish hread
    refine ⟨hlines, fun row hrow => ?_⟩
    have hblank := row.isBlank_eq
    rw [hfilled row hrow, Bool.not_false, eq_comm, List.any_eq_true] at hblank
    simpa using hblank

/-- Behind a text with a mark, a quoted line feed and a stray quote stands a field that is closed or
left open. -/
theorem readRows_append_quoted :
    let head := "\ufeffa,\"b\nc\"\n\nx\"\r\n".toList
    readRows head = .ok [⟨1, ["a", "b\nc"]⟩, ⟨4, ["x\""]⟩] ∧
    readRows (head ++ "1\n,\n\"2\"".toList) =
      .ok [⟨1, ["a", "b\nc"]⟩, ⟨4, ["x\""]⟩, ⟨5, ["1"]⟩, ⟨7, ["2"]⟩] ∧
    readRows (head ++ "1\n\"2\n".toList) = .error ⟨6⟩ := by
  intro head
  have hread : readRows head = .ok [⟨1, ["a", "b\nc"]⟩, ⟨4, ["x\""]⟩] := by decide +kernel
  have hend : head.getLast? = some '\n' := by decide
  have hmark : "1\n,\n\"2\"".toList.head? ≠ some '\ufeff' := by decide
  have hmark' : "1\n\"2\n".toList.head? ≠ some '\ufeff' := by decide
  have hclosed := (readRows_append hread hend hmark).1
  have hopen := (readRows_append hread hend hmark').1
  have hlater : readRows "1\n,\n\"2\"".toList = .ok [⟨1, ["1"]⟩, ⟨3, ["2"]⟩] := by decide +kernel
  have hfault : readRows "1\n\"2\n".toList = .error ⟨2⟩ := by decide +kernel
  rw [hlater] at hclosed
  rw [hfault] at hopen
  exact ⟨hread, hclosed, hopen⟩

end BlockAffinity.Csv
