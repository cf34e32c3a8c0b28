import BlockAffinity.Proofs.Csv.Rendering
import BlockAffinity.Proofs.Decimal
import BlockAffinity.Proofs.Ingest.Tables
import BlockAffinity.Proofs.Lists
import BlockAffinity.Report.Tables
import Mathlib

/-!
# BlockAffinity.Proofs.Report.Summaries

**The descriptions of clusters are read back from their table**, up to the ids of the members. The
members of a cluster share a cell, with semicolons between them, and nothing tells these semicolons from
those of an id: an id comes back in the pieces between its semicolons (`Tables.mapM_readSummary?`). So
descriptions come back as they are exactly if no id has a semicolon in it
(`ClusterSummary.map_cut_eq_self_iff`).

Commas, quotes and line breaks in ids do no harm, because the cell as a whole is quoted where one of
them occurs.
-/

namespace BlockAffinity

/-! ### Ids with semicolons -/

/-- The pieces of an id between its semicolons, each as an id. -/
def BlockId.cut (id : BlockId) : List BlockId :=
  (id.text.toList.splitOn ';').map fun piece => ⟨String.ofList piece⟩

theorem BlockId.cut_eq_singleton {id : BlockId} (h : ';' ∉ id.text.toList) : id.cut = [id] := by
  rw [cut, List.splitOn_eq_singleton h, List.map_singleton, String.ofList_toList]

theorem BlockId.length_cut (id : BlockId) : id.cut.length = id.text.toList.count ';' + 1 := by
  rw [cut, List.length_map, length_splitOn]

namespace ClusterSummary

/-- No member has a semicolon in its id. -/
def IsPlain (s : ClusterSummary) : Prop := ∀ id ∈ s.members, ';' ∉ id.text.toList

/-- The description with the ids of the members cut at their semicolons. -/
def cut (s : ClusterSummary) : ClusterSummary := { s with members := s.members.flatMap BlockId.cut }

/-- Cutting makes as many further members as there are semicolons. -/
theorem length_members_cut (s : ClusterSummary) :
    s.cut.members.length =
      s.members.length + (s.members.map fun id => id.text.toList.count ';').sum := by
  show (s.members.flatMap BlockId.cut).length = _
  induction s.members with
  | nil => rfl
  | cons id members ih =>
      rw [List.flatMap_cons, List.length_append, ih, BlockId.length_cut, List.map_cons, List.sum_cons,
        List.length_cons]
      omega

theorem cut_eq_self_iff {s : ClusterSummary} : s.cut = s ↔ s.IsPlain := by
  constructor
  · intro h id hid
    have hnone : (s.members.map fun id => id.text.toList.count ';').sum = 0 := by
      have hlength := s.length_members_cut
      rw [h] at hlength
      omega
    have hcount : id.text.toList.count ';' ∈ s.members.map fun id => id.text.toList.count ';' :=
      List.mem_map_of_mem hid
    exact List.count_eq_zero.mp
      (Nat.eq_zero_of_le_zero (hnone ▸ List.le_sum_of_mem hcount))
  · intro h
    have hmembers : s.members.flatMap BlockId.cut = s.members := by
      rw [List.flatMap_congr fun id hid => BlockId.cut_eq_singleton (h id hid)]
      exact List.flatMap_singleton' s.members
    rw [cut, hmembers]

/-- **Cutting changes nothing** exactly if no id has a semicolon in it. -/
theorem map_cut_eq_self_iff {clusters : List ClusterSummary} :
    clusters.map cut = clusters ↔ ∀ s ∈ clusters, s.IsPlain := by
  induction clusters with
  | nil => simp
  | cons s clusters ih => rw [List.map_cons, List.cons.injEq, ih, cut_eq_self_iff, List.forall_mem_cons]

end ClusterSummary

namespace Tables

open Decimal (digitText digitsValue)

/-! ### Reading a row -/

/-- The whole number that a cell of digits holds. -/
def readCount? (cell : String) : Option Nat :=
  if cell.toList ≠ [] ∧ cell.toList.all Char.isDigit then some (digitsValue 0 cell.toList) else none

/-- The blocks that share a cell, taking every semicolon for a separator. -/
def readMembers (cell : String) : List BlockId := BlockId.cut ⟨cell⟩

/-- The description of a cluster that a row holds. -/
def readSummary? (row : Csv.Row) : Option ClusterSummary :=
  match row.fields with
  | [label, _, members, instruction, left, right] => do
      return ⟨← readCount? label, readMembers members,
        ⟨← readCount? instruction, ← readCount? left, ← readCount? right⟩⟩
  | _ => none

theorem readCount?_digitText (n : Nat) : readCount? (digitText n) = some n := by
  have hdigits : (Nat.toDigits 10 n).all Char.isDigit = true :=
    List.all_eq_true.mpr fun _ => Decimal.isDigit_of_mem
  rw [readCount?, digitText, String.toList_ofList, if_pos ⟨Nat.toDigits_ne_nil, hdigits⟩]
  exact congrArg some Nat.ofDigitChars_ten_toDigits

/-- **Members that share a cell** come back cut at their semicolons. -/
theorem readMembers_intercalate {members : List BlockId} (h : members ≠ []) :
    readMembers (memberSeparator.intercalate (members.map BlockId.text)) =
      members.flatMap BlockId.cut := by
  have hchars : (memberSeparator.intercalate (members.map BlockId.text)).toList =
      [';'].intercalate (members.map fun id => id.text.toList) := by
    rw [String.toList_intercalate, List.map_map]
    rfl
  rw [readMembers, BlockId.cut, hchars, splitOn_intercalate_eq_flatMap (by simpa using h),
    List.flatMap_map, List.map_flatMap]
  rfl

/-- The cells of the row of a cluster. -/
def summaryFields (s : ClusterSummary) : List String :=
  [digitText s.label, digitText s.members.length,
    memberSeparator.intercalate (s.members.map BlockId.text),
    digitText s.distinctTokens.instruction, digitText s.distinctTokens.leftOperand,
    digitText s.distinctTokens.rightOperand]

theorem readSummary?_of_fields {s : ClusterSummary} (hmembers : s.members ≠ []) {row : Csv.Row}
    (hrow : row.fields = summaryFields s) : readSummary? row = some s.cut := by
  rw [readSummary?, hrow]
  simp only [summaryFields, readCount?_digitText, readMembers_intercalate hmembers]
  rfl

/-- **The rows of the table** hold the descriptions with the ids of the members cut at their
semicolons. -/
theorem mapM_readSummary? {clusters : List ClusterSummary} (h : ∀ s ∈ clusters, s.members ≠ [])
    {records : List Csv.Row} (hrecords : records.map Csv.Row.fields = clusters.map summaryFields) :
    records.mapM readSummary? = some (clusters.map ClusterSummary.cut) := by
  induction clusters generalizing records with
  | nil =>
      rw [List.map_nil, List.map_eq_nil_iff] at hrecords
      rw [hrecords]
      rfl
  | cons s clusters ih =>
      obtain ⟨row, records, rfl, hrow, hrest⟩ := List.map_eq_cons_iff.mp hrecords
      rw [List.forall_mem_cons] at h
      rw [List.mapM_cons, readSummary?_of_fields h.1 hrow, ih h.2 hrest]
      rfl

/-! ### The table -/

/-- The header of the table. -/
def summaryHeader : List String :=
  ["Cluster", "Size", "Block_IDs", "Distinct_Instructions", "Distinct_Left_Operands",
    "Distinct_Right_Operands"]

/-- A row that begins with a number is not blank. -/
theorem all_isBlank_digitText (n : Nat) (fields : List String) :
    (digitText n :: fields).all Text.isBlank = false := by
  have htrimmed : Text.IsTrimmed (digitText n) :=
    ⟨fun hempty => Nat.toDigits_ne_nil (String.ofList_eq_empty_iff.mp hempty),
      (Decimal.isSolid_digits fun _ => Decimal.isDigit_of_mem).trim_eq⟩
  exact Ingest.all_isBlank_of_isTrimmed htrimmed fields

theorem summaries_eq_writeRows (clusters : List ClusterSummary) :
    summaries clusters = Csv.writeRows (summaryHeader :: clusters.map summaryFields) := rfl

/-- The table has no byte order mark. -/
theorem head?_summaries (clusters : List ClusterSummary) :
    (summaries clusters).toList.head? = some 'C' := by
  have hheader : Csv.rowChars summaryHeader = 'C' :: (Csv.rowChars summaryHeader).tail := by
    decide +kernel
  rw [summaries_eq_writeRows, Csv.writeRows, List.map_cons, String.join_cons, String.toList_append,
    Csv.writeRow, String.toList_ofList, hheader]
  rfl

theorem readTable_summaries (clusters : List ClusterSummary) :
    ∃ records, Csv.readTable (summaries clusters) = .ok ⟨summaryHeader, records⟩ ∧
      records.map Csv.Row.fields = clusters.map summaryFields := by
  have hmark := head?_summaries clusters
  rw [summaries_eq_writeRows] at hmark ⊢
  refine Csv.readTable_writeRows (fun fields hfields => ?_) (by rw [hmark]; decide)
  rcases List.mem_cons.mp hfields with rfl | hfields
  · decide +kernel
  · obtain ⟨s, -, rfl⟩ := List.mem_map.mp hfields
    exact all_isBlank_digitText s.label _

/-- **The table of descriptions** holds them with the ids of the members cut at their semicolons. -/
theorem readSummaries {clusters : List ClusterSummary} (h : ∀ s ∈ clusters, s.members ≠ []) :
    ∃ table, Csv.readTable (summaries clusters) = .ok table ∧
      table.records.mapM readSummary? = some (clusters.map ClusterSummary.cut) := by
  obtain ⟨records, htable, hrecords⟩ := readTable_summaries clusters
  exact ⟨_, htable, mapM_readSummary? h hrecords⟩

/-- **Descriptions are read back from their table** exactly if no id has a semicolon in it, and no two
lists of such descriptions have the same table. -/
theorem summaries_read_back {clusters : List ClusterSummary} (h : ∀ s ∈ clusters, s.members ≠ []) :
    (∃ table, Csv.readTable (summaries clusters) = .ok table ∧
      (table.records.mapM readSummary? = some clusters ↔ ∀ s ∈ clusters, s.IsPlain)) ∧
    ((∀ s ∈ clusters, s.IsPlain) → ∀ others : List ClusterSummary,
      (∀ s ∈ others, s.members ≠ []) → (∀ s ∈ others, s.IsPlain) →
        summaries others = summaries clusters → others = clusters) := by
  obtain ⟨table, htable, hread⟩ := readSummaries h
  refine ⟨⟨table, htable, ?_⟩, fun hplain others hothers hothersPlain hsame => ?_⟩
  · rw [hread, Option.some.injEq, ClusterSummary.map_cut_eq_self_iff]
  · obtain ⟨table', htable', hread'⟩ := readSummaries hothers
    rw [hsame, htable, Except.ok.injEq] at htable'
    rw [← htable', hread, Option.some.injEq] at hread'
    calc others = others.map ClusterSummary.cut :=
          (ClusterSummary.map_cut_eq_self_iff.mpr hothersPlain).symm
      _ = clusters.map ClusterSummary.cut := hread'.symm
      _ = clusters := ClusterSummary.map_cut_eq_self_iff.mpr hplain

/-- Two clusters, with commas, quotes and a line break in the ids of their members. -/
def quotedClusters : List ClusterSummary :=
  [⟨1, [⟨"main, 1"⟩, ⟨"the \"loop\""⟩], ⟨3, 2, 0⟩⟩, ⟨2, [⟨"two\nlines"⟩], ⟨12, 1, 1⟩⟩]

theorem quotedClusters_read_back :
    (∃ table, Csv.readTable (summaries quotedClusters) = .ok table ∧
      table.records.mapM readSummary? = some quotedClusters) ∧
    ∀ others : List ClusterSummary, (∀ s ∈ others, s.members ≠ []) → (∀ s ∈ others, s.IsPlain) →
      summaries others = summaries quotedClusters → others = quotedClusters := by
  have hmembers : ∀ s ∈ quotedClusters, s.members ≠ [] := by decide
  have hplain : ∀ s ∈ quotedClusters, s.IsPlain := by
    unfold ClusterSummary.IsPlain
    decide +kernel
  obtain ⟨⟨table, htable, hread⟩, hunique⟩ := summaries_read_back hmembers
  exact ⟨⟨table, htable, hread.mpr hplain⟩, hunique hplain⟩

/-- One cluster of two blocks. -/
def pairCluster (left right : String) : List ClusterSummary := [⟨1, [⟨left⟩, ⟨right⟩], ⟨0, 0, 0⟩⟩]

/-- **Where ids have semicolons**, different descriptions have the same table, and none of them is read
back from it: the cell holds three ids then. -/
theorem summaries_of_semicolons :
    (∀ id ∈ ["a;b", "c", "a", "b;c"], Text.IsTrimmed id) ∧
    pairCluster "a;b" "c" ≠ pairCluster "a" "b;c" ∧
    summaries (pairCluster "a;b" "c") = summaries (pairCluster "a" "b;c") ∧
    ∃ table, Csv.readTable (summaries (pairCluster "a;b" "c")) = .ok table ∧
      table.records.mapM readSummary? = some [⟨1, [⟨"a"⟩, ⟨"b"⟩, ⟨"c"⟩], ⟨0, 0, 0⟩⟩] := by
  refine ⟨by decide +kernel, by decide, by decide +kernel, ?_⟩
  obtain ⟨table, htable, hread⟩ :=
    readSummaries (show ∀ s ∈ pairCluster "a;b" "c", s.members ≠ [] by decide)
  have hcut : (pairCluster "a;b" "c").map ClusterSummary.cut =
      [⟨1, [⟨"a"⟩, ⟨"b"⟩, ⟨"c"⟩], ⟨0, 0, 0⟩⟩] := by decide +kernel
  exact ⟨table, htable, by rw [hread, hcut]⟩

end Tables
end BlockAffinity
