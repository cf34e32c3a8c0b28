import BlockAffinity.Proofs.Analysis.Kept
import BlockAffinity.Proofs.Analysis.Totality
import BlockAffinity.Proofs.Ingest.Listing
import BlockAffinity.Proofs.Linkage.Partition
import BlockAffinity.Proofs.Summary
import BlockAffinity.Report.Documents

/-!
# BlockAffinity.Proofs.Analysis.Coherence

**The parts of an analysis fit together.** Each part of a report is made by another stage from
another value, and they are read side by side. What they have to say about each other is `Coherent`:
all are about the same blocks, the flat clusters with their silhouette and their descriptions are
about the same labels, and there is a silhouette where there are two clusters to compare.

Three facts carry it: scores are about the profiled blocks, a cut labels the blocks from 1 on
without a gap (`Dendrogram.labels_of_cut`), and the silhouette of valid distances is missing for no
other reason than too few clusters (`Silhouette.ofAssignment_cases`).
-/

namespace BlockAffinity

variable {α : Type}

/-! ### Labels -/

/-- **A cut labels exactly the given blocks**, from 1 to the number of clusters. -/
theorem Dendrogram.labels_of_cut [Scalar α] {tree : Dendrogram α} {ids : List BlockId}
    {threshold : α} {flat : Assignment} (hids : ids.Nodup)
    (h : tree.cut ids threshold = .ok flat) :
    flat.ids = ids ∧ labelSet flat.values = List.range' 1 flat.clusterCount := by
  obtain ⟨-, -, joined, -, rfl⟩ := cut_eq_ok_iff.mp h
  obtain ⟨last, hnumbered⟩ := joined.exists_numbered hids
  refine ⟨Assignment.ids_ofLabels hids (joined.length_labels ids), ?_⟩
  rw [Assignment.clusterCount_eq, hnumbered.labelSet_eq, List.length_range']

/-- The descriptions of all clusters of an assignment. -/
structure ClusterSummary.Describe (summaries : List ClusterSummary) (assignment : Assignment)
    (profiles : Profiles α) : Prop where
  labels : summaries.map ClusterSummary.label = List.range' 1 assignment.clusterCount
  /-- Members are the blocks with the label, in order. -/
  members : ∀ summary ∈ summaries, summary.members = assignment.members summary.label
  members_ne_nil : ∀ summary ∈ summaries, summary.members ≠ []
  disjoint : summaries.Pairwise fun x y => x.members.Disjoint y.members
  together : (summaries.flatMap ClusterSummary.members).Perm assignment.ids
  distinctTokens : ∀ summary ∈ summaries, ∀ role, summary.distinctTokens.get role =
    (summary.members.toFinset.biUnion (blockTokens profiles role)).card

theorem ClusterSummary.describe_ofAssignment {assignment : Assignment}
    (hlabels : labelSet assignment.values = List.range' 1 assignment.clusterCount)
    (profiles : Profiles α) : Describe (ofAssignment assignment profiles) assignment profiles := by
  rw [ofAssignment_eq]
  refine ⟨?_, ?_, ?_, ?_, ?_, ?_⟩
  · rw [List.map_map, ← hlabels]
    exact List.map_id' _
  · intro summary hsummary
    obtain ⟨label, -, rfl⟩ := List.mem_map.mp hsummary
    rfl
  · intro summary hsummary
    obtain ⟨label, hlabel, rfl⟩ := List.mem_map.mp hsummary
    exact Assignment.members_ne_nil (mem_labelSet.mp hlabel)
  · refine List.pairwise_map.mpr ((pairwise_labelSet assignment.values).imp fun h => ?_)
    exact Assignment.disjoint_members h.ne
  · rw [List.flatMap_map]
    exact assignment.flatMap_members_perm
  · intro summary hsummary role
    obtain ⟨label, -, rfl⟩ := List.mem_map.mp hsummary
    rw [distinctTokens_ofMembers, distinctCount_eq_card]
    rfl

/-! ### Silhouettes -/

namespace Silhouette

variable {m : ScoreMatrix α} {assignment : Assignment}

/-- The labels of the blocks are read in their order. -/
theorem labelsOf?_eq {ids : List BlockId} (hids : assignment.ids = ids) :
    labelsOf? (α := α) assignment ids = .ok assignment.values := by
  rw [← hids, labelsOf?, mapM_eq_ok_iff, Roster.ids, Roster.values, List.map_map, List.map_map]
  refine List.map_congr_left fun entry hentry => ?_
  rw [Function.comp_apply, Roster.mem_entries_iff.mp hentry]
  rfl

variable [Scalar α]

/-- **There is a silhouette exactly if there are two clusters**, if the distances are valid. -/
theorem ofAssignment_cases (hvalid : m.validate = .ok ()) (hids : assignment.ids = m.ids) :
    (2 ≤ assignment.clusterCount ∧ ∃ silhouette, ofAssignment m assignment = .ok silhouette ∧
      silhouette.scores.ids = m.ids) ∨
    (assignment.clusterCount < 2 ∧
      ∃ gap, ofAssignment m assignment = .error (.undefinedSilhouette gap)) := by
  have hlength : assignment.values.length = m.ids.length := by
    rw [← hids, Roster.values, Roster.ids, List.length_map, List.length_map]
  have hclusters : (groupByLabel assignment.values.zipIdx).length = assignment.clusterCount := by
    rw [groupByLabel, List.length_map, List.zipIdx_map_fst, Assignment.clusterCount_eq]
  have hof : ofAssignment m assignment =
      if m.isEmpty then .error (.undefinedSilhouette .noBlocks)
      else ofLabels m assignment.values := by
    rw [ofAssignment, hvalid, labelsOf?_eq hids]
    rfl
  rw [hof]
  cases hempty : m.isEmpty with
  | true =>
      have hvalues : assignment.values = [] := by
        rw [List.isEmpty_iff.mp hempty] at hlength
        exact List.length_eq_zero_iff.mp hlength
      refine .inr ⟨?_, .noBlocks, if_pos rfl⟩
      rw [Assignment.clusterCount_eq, hvalues]
      exact Nat.zero_lt_two
  | false =>
      rw [if_neg Bool.false_ne_true, ofLabels]
      dsimp only
      rw [hclusters]
      by_cases hfew : assignment.clusterCount < 2
      · exact .inr ⟨hfew, _, if_pos hfew⟩
      · refine .inl ⟨Nat.le_of_not_lt hfew, _, if_neg hfew, ?_⟩
        have hzip : m.ids.length ≤ (assignment.values.zipIdx.map fun entry =>
            coefficient (m.cell entry.2) entry.2 entry.1
              (groupByLabel assignment.values.zipIdx)).length := by
          rw [List.length_map, List.length_zipIdx, hlength]
        have hnodup : m.ids.Nodup := hids ▸ assignment.distinct
        rw [Roster.ids, Roster.entries_ofList (by rwa [List.map_fst_zip hzip]),
          List.map_fst_zip hzip]

end Silhouette

/-! ### Entropies -/

namespace Entropy

variable [Scalar α] {profiles : Profiles α} {id : BlockId} {profile : Profile α}

theorem block_of_mem_entriesOf {row : Entry α} (h : row ∈ entriesOf id profile) :
    row.block = id := by
  obtain ⟨group, -, hrow⟩ := List.mem_flatMap.mp h
  obtain ⟨entry, -, rfl⟩ := List.mem_map.mp hrow
  rfl

/-- The rows of a block are those of its profile. -/
theorem filter_entries (hmem : (id, profile) ∈ profiles.entries) :
    (entries profiles).filter (fun row => row.block == id) = entriesOf id profile := by
  have hother : ∀ entry ∈ profiles.entries, entry ≠ (id, profile) →
      (entriesOf entry.1 entry.2).filter (fun row => row.block == id) = [] := by
    intro entry hentry hne
    refine List.filter_eq_nil_iff.mpr fun row hrow => ?_
    rw [beq_iff_eq, block_of_mem_entriesOf hrow]
    rintro rfl
    have hget := (Roster.mem_entries_iff.mp hentry).symm.trans (Roster.mem_entries_iff.mp hmem)
    exact hne (Prod.ext rfl (Option.some.inj hget))
  have hown : (entriesOf id profile).filter (fun row => row.block == id) = entriesOf id profile :=
    List.filter_eq_self.mpr fun row hrow => beq_iff_eq.mpr (block_of_mem_entriesOf hrow)
  rw [entries, List.filter_flatMap,
    flatMap_eq_of_unique (List.Nodup.of_map Prod.fst profiles.distinct) hmem hother, hown]

/-- **Rows stand block by block**, in the order of the blocks. -/
theorem entries_eq_flatMap (profiles : Profiles α) :
    entries profiles =
      profiles.ids.flatMap fun id => (entries profiles).filter fun row => row.block == id := by
  rw [Roster.ids, List.flatMap_map]
  conv_lhs => rw [entries]
  exact List.flatMap_congr fun entry hentry => (filter_entries hentry).symm

end Entropy

namespace Analysis

variable [Scalar α] {settings : Settings α} {profiles : Profiles α} {kept : Option (Scores α)}
  {skipped : Nat} {a : Analysis α}

/-! ### Reports -/

/-- The parts of an analysis fit together. -/
structure Coherent (settings : Settings α) (profiles : Profiles α) (a : Analysis α) : Prop where
  blocks : a.report.blocks = profiles.ids
  distances : a.scores.distances.ids = profiles.ids
  leaves : a.report.tree.leaves = profiles.ids.length
  flat_isSome : a.report.flat.isSome = settings.threshold.isSome
  /-- Flat clusters are labels for exactly the blocks, in order. -/
  assignment_ids : ∀ flat ∈ a.report.flat, flat.assignment.ids = profiles.ids
  mem_labels_iff : ∀ flat ∈ a.report.flat, ∀ label,
    label ∈ flat.assignment.values ↔ 1 ≤ label ∧ label ≤ a.report.clusterCount
  silhouette_isSome_iff :
    a.report.silhouette?.isSome ↔ a.report.flat.isSome ∧ 2 ≤ a.report.clusterCount
  silhouette_ids : ∀ silhouette ∈ a.report.silhouette?, silhouette.scores.ids = profiles.ids
  note_isSome_iff :
    a.report.silhouetteNote?.isSome ↔ a.report.flat.isSome ∧ a.report.clusterCount < 2
  summaries_eq_nil : settings.threshold = none → a.report.summaries = []
  summaries : ∀ flat ∈ a.report.flat,
    ClusterSummary.Describe a.report.summaries flat.assignment profiles
  sweep : a.report.sweep.map SweepPoint.threshold = settings.sweep
  entropy_block : ∀ row ∈ a.entropy, row.block ∈ a.report.blocks
  /-- The rows stand block by block, in the order of the blocks. -/
  entropy_order : a.entropy =
    a.report.blocks.flatMap fun id => a.entropy.filter fun row => row.block == id

/-- Scores that a run works with are about the profiled blocks. -/
theorem ids_of_chooseScores {scores : Scores α} {fromCache : Bool}
    (h : chooseScores settings profiles kept = .ok (scores, fromCache)) :
    scores.distances.ids = profiles.ids := by
  unfold chooseScores at h
  have hfresh : (score settings profiles).map (·, false) = .ok (scores, fromCache) →
      scores.distances.ids = profiles.ids := by
    intro h
    obtain ⟨_, hscore, heq⟩ := exists_of_map_eq_ok h
    cases heq
    exact ids_of_score hscore
  cases kept with
  | none => exact hfresh h
  | some kept =>
      dsimp only at h
      split at h
      · rename_i hids
        cases h
        exact hids
      · exact hfresh h

theorem threshold_of_sweepPoint {distances : ScoreMatrix α} {tree : Dendrogram α} {threshold : α}
    {point : SweepPoint α} (h : sweepPoint distances tree threshold = .ok point) :
    point.threshold = threshold := by
  obtain ⟨assignment, -, h⟩ := bind_eq_ok_iff.mp h
  obtain ⟨mean, -, h⟩ := bind_eq_ok_iff.mp h
  cases h
  rfl

/-- The points of a sweep are about its thresholds, in order. -/
theorem thresholds_of_run (h : run settings profiles skipped kept = .ok a) :
    a.report.sweep.map SweepPoint.threshold = settings.sweep := by
  refine List.ext_getElem? fun k => ?_
  have hk := congrArg (·[k]?) (sweep_of_run h)
  simp only [List.getElem?_map] at hk ⊢
  cases hpoint : a.report.sweep[k]? with
  | none =>
      rw [hpoint, Option.map_none, Option.map_eq_none_iff] at hk
      rw [hk, Option.map_none]
  | some point =>
      rw [hpoint, Option.map_some, Option.map_eq_some_iff] at hk
      obtain ⟨threshold, hthreshold, hok⟩ := hk
      rw [hthreshold, Option.map_some, threshold_of_sweepPoint hok]

/-- Evaluating finds a silhouette exactly if there are two clusters. -/
theorem evaluate_cases {distances : ScoreMatrix α} {assignment : Assignment}
    (hvalid : distances.validate = .ok ()) (hids : assignment.ids = distances.ids) :
    (2 ≤ assignment.clusterCount ∧ ∃ silhouette,
      evaluate distances assignment = .ok (.ok silhouette) ∧
        silhouette.scores.ids = distances.ids) ∨
    (assignment.clusterCount < 2 ∧ ∃ gap, evaluate distances assignment = .ok (.error gap)) := by
  unfold evaluate
  rcases Silhouette.ofAssignment_cases hvalid hids with ⟨hmany, silhouette, h, hscores⟩ | ⟨hfew, gap, h⟩
  · exact .inl ⟨hmany, silhouette, by rw [h], hscores⟩
  · exact .inr ⟨hfew, gap, by rw [h]⟩

/-- The flat clusters of a report, with all that the report says about them. -/
structure FlatCoherent (profiles : Profiles α) (report : Report α) (flat : FlatClusters α) :
    Prop where
  clusterCount : report.clusterCount = flat.assignment.clusterCount
  assignment_ids : flat.assignment.ids = profiles.ids
  labels : labelSet flat.assignment.values = List.range' 1 flat.assignment.clusterCount
  silhouette_isSome_iff : report.silhouette?.isSome ↔ 2 ≤ flat.assignment.clusterCount
  silhouette_ids : ∀ silhouette ∈ report.silhouette?, silhouette.scores.ids = profiles.ids
  note_isSome_iff : report.silhouetteNote?.isSome ↔ flat.assignment.clusterCount < 2
  summaries : report.summaries = ClusterSummary.ofAssignment flat.assignment profiles

/-- **The flat clusters of a run** are those of one cut, in all that is said about them. -/
theorem flatCoherent_of_run (h : run settings profiles skipped kept = .ok a) :
    (settings.threshold = none ∧ a.report.flat = none) ∨
      ∃ threshold flat, settings.threshold = some threshold ∧ a.report.flat = some flat ∧
        FlatCoherent profiles a.report flat := by
  rcases flat_of_run h with hnone | ⟨threshold, flat, hthreshold, hflat, hcut, hevaluate, hsummaries⟩
  · exact .inl hnone
  · obtain ⟨fromCache, hchoice, hvalid⟩ := validate_of_run h
    have hids := ids_of_chooseScores hchoice
    have hdistinct : a.scores.distances.ids.Nodup := hids ▸ profiles.distinct
    obtain ⟨hassignment, hlabels⟩ := Dendrogram.labels_of_cut hdistinct hcut
    have hsilhouette : a.report.silhouette? = flat.silhouette.toOption := by
      rw [Report.silhouette?, hflat, Option.bind_some]
    have hcount : a.report.clusterCount = flat.assignment.clusterCount := by
      rw [Report.clusterCount, hflat, Option.map_some, Option.getD_some]
    have hdescribed : a.report.summaries = flat.summaries := by
      rw [Report.summaries, hflat, Option.map_some, Option.getD_some]
    refine .inr ⟨threshold, flat, hthreshold, hflat, ?_⟩
    rcases evaluate_cases hvalid hassignment with
      ⟨hmany, silhouette, heval, hscores⟩ | ⟨hfew, gap, heval⟩
    · have hfound : flat.silhouette = .ok silhouette :=
        Except.ok.inj (hevaluate.symm.trans heval)
      have hnote : a.report.silhouetteNote? = none := by
        rw [Report.silhouetteNote?, hflat, Option.bind_some, hfound]
      rw [hfound] at hsilhouette
      refine ⟨hcount, hassignment.trans hids, hlabels, ?_, ?_, ?_, hdescribed.trans hsummaries⟩
      · rw [hsilhouette]
        exact iff_of_true rfl hmany
      · rw [hsilhouette]
        rintro _ ⟨rfl⟩
        exact hscores.trans hids
      · rw [hnote]
        exact iff_of_false Bool.false_ne_true (Nat.not_lt.mpr hmany)
    · have hfound : flat.silhouette = .error gap := Except.ok.inj (hevaluate.symm.trans heval)
      have hnote : a.report.silhouetteNote? = some gap.message := by
        rw [Report.silhouetteNote?, hflat, Option.bind_some, hfound]
      rw [hfound] at hsilhouette
      refine ⟨hcount, hassignment.trans hids, hlabels, ?_, ?_, ?_, hdescribed.trans hsummaries⟩
      · rw [hsilhouette]
        exact iff_of_false Bool.false_ne_true (Nat.not_le.mpr hfew)
      · rw [hsilhouette]
        rintro _ ⟨⟩
      · rw [hnote]
        exact iff_of_true rfl hfew

/-- **Every run that goes through is coherent**, whatever its settings and profiles are, and whether
its scores are kept ones or not. -/
theorem run_coherent (settings : Settings α) (profiles : Profiles α) (skipped : Nat)
    (kept : Option (Scores α)) (a : Analysis α)
    (h : run settings profiles skipped kept = .ok a) : a.Coherent settings profiles := by
  obtain ⟨fromCache, hchoice, hvalid⟩ := validate_of_run h
  have hids := ids_of_chooseScores hchoice
  obtain ⟨hleaves, -, -⟩ := Dendrogram.run_of_ofMatrix (tree_of_run h)
  have hblocks : a.report.blocks = profiles.ids ∧ a.entropy = Entropy.entries profiles := by
    obtain ⟨_, _, _, _, _, _, -, -, -, -, rfl⟩ := exists_of_run h
    exact ⟨rfl, rfl⟩
  have hsweep := thresholds_of_run h
  have horder : a.entropy =
      a.report.blocks.flatMap fun id => a.entropy.filter fun row => row.block == id := by
    rw [hblocks.1, hblocks.2]
    exact Entropy.entries_eq_flatMap profiles
  have hrow : ∀ row ∈ a.entropy, row.block ∈ a.report.blocks := by
    intro row hrow
    rw [horder] at hrow
    obtain ⟨id, hid, hrow⟩ := List.mem_flatMap.mp hrow
    exact (beq_iff_eq.mp (List.mem_filter.mp hrow).2) ▸ hid
  rcases flatCoherent_of_run h with ⟨hthreshold, hflat⟩ | ⟨threshold, flat, hthreshold, hflat, hcoherent⟩
  · refine ⟨hblocks.1, hids, hids ▸ hleaves, ?_, ?_, ?_, ?_, ?_, ?_, ?_, ?_, hsweep, hrow, horder⟩
    all_goals simp [hflat, hthreshold, Report.silhouette?, Report.silhouetteNote?, Report.summaries]
  · have hmem : ∀ other ∈ a.report.flat, other = flat := fun other hother =>
      Option.some.inj (hother.symm.trans hflat)
    refine ⟨hblocks.1, hids, hids ▸ hleaves, ?_, ?_, ?_, ?_, hcoherent.silhouette_ids, ?_, ?_, ?_,
      hsweep, hrow, horder⟩
    · rw [hflat, hthreshold]
      rfl
    · intro other hother
      exact hmem other hother ▸ hcoherent.assignment_ids
    · intro other hother label
      rw [hmem other hother, ← mem_labelSet, hcoherent.labels, List.mem_range'_1,
        hcoherent.clusterCount]
      omega
    · rw [hcoherent.silhouette_isSome_iff, hcoherent.clusterCount, hflat]
      simp
    · rw [hcoherent.note_isSome_iff, hcoherent.clusterCount, hflat]
      simp
    · rw [hthreshold]
      rintro ⟨⟩
    · intro other hother
      rw [hmem other hother, hcoherent.summaries]
      exact ClusterSummary.describe_ofAssignment hcoherent.labels profiles

/-- Two blocks are cut at a half, and at two thresholds that are not in order. -/
theorem twoBlocks_coherent :
    let observations : List Observation :=
      [⟨⟨"a"⟩, .instruction, "mov"⟩, ⟨⟨"a"⟩, .leftOperand, "eax"⟩, ⟨⟨"b"⟩, .instruction, "jmp"⟩]
    let settings : Settings Float :=
      { (.standard : Settings Float) with threshold := some 0.5, sweep := [0.75, 0.25] }
    ∃ a, run settings (Ingest.profilesOf observations) 0 none = .ok a ∧
      a.Coherent settings (Ingest.profilesOf observations) ∧
      a.report.blocks = [⟨"a"⟩, ⟨"b"⟩] ∧ a.report.tree.leaves = 2 ∧
      a.report.flat.isSome = true ∧ a.report.sweep.map SweepPoint.threshold = [0.75, 0.25] := by
  intro observations settings
  have hsettings : settings.validate = .ok () := by rfl
  have hbounded := Ingest.isBounded_profilesOf (show observations.length < 2 ^ 64 by decide)
  obtain ⟨a, hrun, -⟩ := exists_run_of_isBounded hsettings hbounded 0
  have hcoherent := run_coherent settings (Ingest.profilesOf observations) 0 none a hrun
  have hids : (Ingest.profilesOf observations : Profiles Float).ids = [⟨"a"⟩, ⟨"b"⟩] := by
    decide +kernel
  refine ⟨a, hrun, hcoherent, hcoherent.blocks.trans hids, ?_, hcoherent.flat_isSome,
    hcoherent.sweep⟩
  rw [hcoherent.leaves, hids]
  rfl

end Analysis

end BlockAffinity
