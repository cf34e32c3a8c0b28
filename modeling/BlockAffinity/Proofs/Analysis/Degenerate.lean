import BlockAffinity.Proofs.Analysis.DoubleRange
import BlockAffinity.Proofs.Distribution.Floored
import BlockAffinity.Proofs.Divergence.Degenerate
import BlockAffinity.Proofs.Ingest.Mass
import BlockAffinity.Proofs.ScoreMatrix.Scoring

/-!
# BlockAffinity.Proofs.Analysis.Degenerate

**When a divergence counts as zero because it is not finite**, for the profiles of a table, in doubles with
any binary logarithm. Whatever a table holds, its profiles have probabilities from zero to one, so a
divergence is degenerate exactly if the two probabilities of a token add up to the smallest double. This
takes a probability that is the smallest double, which counting does not give: a frequency is one part in
`2 ^ 64` at least, and the entropy filter divides by at most `2 ^ 54`. A table of probabilities can say so,
or have a weight that is as small beside the total (`Analysis.fallBack_of_smallestWeight`).
-/

namespace BlockAffinity

open Scalar Double

variable {log2 : Float → Float}

/-! ### The profiles of a table -/

/-- The entropy filter divides a selection of the probabilities by its total. -/
theorem Entropy.filterDistribution_withLog (log2 : Float → Float) (d : Distribution Float) :
    @filterDistribution Float (withLog log2) d = .empty ∨
      ∃ keep, @filterDistribution Float (withLog log2) d = .ofWeights (d.entries.filter keep) := by
  unfold filterDistribution
  cases @threshold? Float (withLog log2) d with
  | none => exact .inl rfl
  | some threshold => exact .inr ⟨_, rfl⟩

namespace Ingest

/-! Rows are read, checked and counted without a logarithm. -/

theorem checkWeight_withLog (log2 : Float → Float) : @checkWeight Float (withLog log2) _ = checkWeight := by
  unfold checkWeight
  rw [isFinite_withLog, lt_withLog, zero_withLog]

theorem weightedRows_withLog (log2 : Float → Float) : @weightedRows Float (withLog log2) _ = weightedRows := by
  unfold weightedRows checkWeighted
  rw [checkWeight_withLog]

theorem profilesOf_withLog (log2 : Float → Float) : @profilesOf Float (withLog log2) = profilesOf := rfl

theorem profilesOfWeights_withLog (log2 : Float → Float) :
    @profilesOfWeights Float (withLog log2) = profilesOfWeights := rfl

end Ingest

namespace Analysis

variable {settings : Settings Float} {table : Csv.Table}

/-- **What holds of the distributions of a table** and is kept by the entropy filter holds of the filtered
ones. -/
theorem forall_filtered (before after : Distribution Float → Prop) (hkept : ∀ d, before d → after d)
    (hempty : after .empty)
    (hfilter : ∀ d keep, before d → after (.ofWeights (d.entries.filter keep)))
    {profiles : Profiles Float} (h : ∀ p ∈ profiles.values, ∀ role, before (p.get role)) :
    ∀ p ∈ (@filtered Float (withLog log2) settings profiles).values, ∀ role, after (p.get role) := by
  unfold filtered
  split
  · intro p hp role
    obtain ⟨earlier, hearlier, hget⟩ := @Entropy.exists_of_mem_filterProfiles Float (withLog log2) _ _ hp
    rw [hget]
    rcases Entropy.filterDistribution_withLog log2 (earlier.get role) with heq | ⟨keep, heq⟩ <;> rw [heq]
    · exact hempty
    · exact hfilter _ keep (h earlier hearlier role)
  · exact fun p hp role => hkept _ (h p hp role)

/-- Observed blocks have probabilities that are bounded on both sides. -/
theorem isFloored_profilesOf {observations : List Observation} (h : observations.length < 2 ^ 64) :
    ∀ p ∈ (Ingest.profilesOf observations : Profiles Float).values, ∀ role,
      (p.get role).IsBounded ∧ (p.get role).IsFloored (-64) := by
  intro p hp role
  refine ⟨Ingest.isBounded_profilesOf h p hp role, ?_⟩
  obtain ⟨id, tally, htally, hsome⟩ := Roster.mem_values_filterMap.mp hp
  obtain rfl := Option.some.inj hsome
  rw [PerRole.get_map]
  exact Distribution.isFloored_ofCounts (n := 64) (by norm_num) ((Ingest.sum_tally_le htally role).trans h.le)

/-- Accepted weights have probabilities that are bounded. -/
theorem isBounded_profilesOfWeights {rows : List (Ingest.Weighted Float)} (h : Ingest.AreWeights rows) :
    ∀ p ∈ (Ingest.profilesOfWeights rows).values, ∀ role, (p.get role).IsBounded := by
  intro p hp role
  obtain ⟨id, groups, hgroups, hkept⟩ := Roster.mem_values_filterMap.mp hp
  obtain ⟨-, hkept⟩ := Option.ite_none_left_eq_some.mp hkept
  obtain rfl := Option.some.inj hkept
  rw [PerRole.get_map, Ingest.get_weightGroups hgroups]
  exact Distribution.isBounded_ofWeights h.isDistance

/-- A record stands for at most three rows. -/
theorem length_disassemblyRows_le {α : Type} {rows : List Ingest.RawRow}
    (h : Ingest.disassemblyRows (α := α) table = .ok rows) : rows.length ≤ 3 * table.records.length := by
  obtain ⟨block, -, h⟩ := bind_eq_ok_iff.mp h
  obtain ⟨mnemonic, -, h⟩ := bind_eq_ok_iff.mp h
  obtain rfl := Except.ok.inj h
  rw [List.length_flatMap]
  refine (List.sum_le_card_nsmul _ 3 fun n hn => ?_).trans_eq (by rw [List.length_map, smul_eq_mul, mul_comm])
  obtain ⟨row, -, rfl⟩ := List.mem_map.mp hn
  simp only [Ingest.instructionRows, List.length_cons]
  split_ifs <;> simp

theorem isBounded_of_acceptsWeighted {loaded : Profiles Float × Nat}
    (h : @AcceptsWeighted Float (withLog log2) _ settings table loaded) :
    ∀ p ∈ loaded.1.values, ∀ role, (p.get role).IsBounded := by
  obtain ⟨accepted, haccepted, rfl⟩ := h
  rw [Ingest.weightedRows_withLog] at haccepted
  rw [Ingest.profilesOfWeights_withLog]
  exact forall_filtered Distribution.IsBounded Distribution.IsBounded (fun _ hd => hd) Distribution.isBounded_empty
    (fun _ keep hd => Distribution.isBounded_ofWeights_filter hd keep)
    (isBounded_profilesOfWeights (Ingest.areWeights_of_weightedRows haccepted))

theorem isFloored_of_acceptsRaw {loaded : Profiles Float × Nat}
    {rawRows : Csv.Table → Except (Fault Float) (List Ingest.RawRow)}
    (hlength : ∀ rows, rawRows table = .ok rows → rows.length < 2 ^ 64)
    (h : @AcceptsRaw Float (withLog log2) rawRows settings table loaded) :
    ∀ p ∈ loaded.1.values, ∀ role, (p.get role).IsBounded ∧ (p.get role).IsFloored (-118) := by
  obtain ⟨rows, accepted, hrows, haccepted, rfl⟩ := h
  have hobservations : accepted.rows.length < 2 ^ 64 := by
    rw [Ingest.rows_of_acceptRows haccepted]
    exact (List.length_filterMap_le _ _).trans_lt (hlength rows hrows)
  rw [Ingest.profilesOf_withLog]
  refine forall_filtered (fun d => d.IsBounded ∧ d.IsFloored (-64))
    (fun d => d.IsBounded ∧ d.IsFloored (-118)) ?_ ?_ ?_ (isFloored_profilesOf hobservations)
  · exact fun d hd => ⟨hd.1, fun p hp => (zpow_le_zpow_right₀ one_le_two (by norm_num)).trans (hd.2 p hp)⟩
  · exact ⟨Distribution.isBounded_empty, Distribution.isFloored_empty⟩
  · exact fun d keep hd => ⟨Distribution.isBounded_ofWeights_filter hd.1 keep,
      Distribution.isFloored_ofWeights_filter (by norm_num) hd.1 hd.2 keep⟩

/-- **The profiles of a table** have probabilities from zero to one, and none that is small if the table
holds no probabilities. -/
theorem probabilities_of_loadProfiles {loaded : Profiles Float × Nat}
    (hlength : table.records.length < 2 ^ 62)
    (h : @loadProfiles Float (withLog log2) _ settings table = .ok loaded) :
    ∀ p ∈ loaded.1.values, ∀ role, (p.get role).IsBounded ∧
      (settings.inputKind ≠ .probabilities → (p.get role).IsFloored (-118)) := by
  have hoccurrences : ∀ rows, Ingest.occurrenceRows (α := Float) table = .ok rows → rows.length < 2 ^ 64 := by
    intro rows hrows
    obtain ⟨block, -, hrows⟩ := bind_eq_ok_iff.mp hrows
    obtain ⟨roleColumn, -, hrows⟩ := bind_eq_ok_iff.mp hrows
    obtain ⟨token, -, hrows⟩ := bind_eq_ok_iff.mp hrows
    obtain rfl := Except.ok.inj hrows
    rw [List.length_map]
    omega
  have hdisassembly : ∀ rows, Ingest.disassemblyRows (α := Float) table = .ok rows → rows.length < 2 ^ 64 := by
    intro rows hrows
    have hthree := length_disassemblyRows_le hrows
    omega
  have hbehind := @accepts_of_loadProfiles Float (withLog log2) _ _ _ _ h
  intro p hp role
  cases hkind : settings.inputKind with
  | occurrences =>
      rw [hkind] at hbehind
      obtain ⟨hbounded, hfloored⟩ := isFloored_of_acceptsRaw hoccurrences hbehind p hp role
      exact ⟨hbounded, fun _ => hfloored⟩
  | disassembly =>
      rw [hkind] at hbehind
      obtain ⟨hbounded, hfloored⟩ := isFloored_of_acceptsRaw hdisassembly hbehind p hp role
      exact ⟨hbounded, fun _ => hfloored⟩
  | probabilities =>
      rw [hkind] at hbehind
      exact ⟨isBounded_of_acceptsWeighted hbehind p hp role, fun hother => absurd rfl hother⟩

end Analysis

/-! ### Degenerate pairs -/

/-- The role divergences of two blocks are counted for the roles that one of them uses. -/
theorem Divergence.degenerateCount_eq_zero_iff {α : Type} [Scalar α] {left right : Profile α} :
    degenerateCount left right = 0 ↔ ∀ role,
      ((left.get role).isEmpty && (right.get role).isEmpty) = false →
        isDegenerate (jensenShannon (left.get role) (right.get role)) = false := by
  simp only [degenerateCount, roleDivergences, List.length_eq_zero_iff, List.filter_eq_nil_iff,
    List.forall_mem_map, List.mem_filter, Bool.not_eq_true', Bool.not_eq_true, Role.mem_all, true_and]

/-- **No divergence is degenerate** if none of two blocks is. -/
theorem ScoreMatrix.degenerateDivergences_eq_zero_iff {α : Type} [Scalar α] {profiles : Profiles α} :
    degenerateDivergences profiles = 0 ↔
      profiles.values.Pairwise fun left right => Divergence.degenerateCount left right = 0 := by
  have hsize : profiles.size = profiles.values.length := (List.length_map _).symm
  unfold degenerateDivergences
  show List.sum _ = 0 ↔ _
  rw [List.sum_eq_zero_iff, List.forall_mem_map, List.pairwise_iff_getElem, hsize]
  constructor
  · intro h i j hi hj hij
    have hpair := h (i, j) (mem_pairIndices.mpr ⟨hij, hj⟩)
    dsimp only at hpair
    rwa [List.getElem?_eq_getElem hi, List.getElem?_eq_getElem hj] at hpair
  · rintro h ⟨i, j⟩ hpair
    obtain ⟨hij, hj⟩ := mem_pairIndices.mp hpair
    dsimp only
    rw [List.getElem?_eq_getElem (hij.trans hj), List.getElem?_eq_getElem hj]
    exact h i j (hij.trans hj) hj hij

namespace Analysis

variable {settings : Settings Float} {table : Csv.Table}

/-- Divergences are scored whatever the logarithm is. -/
theorem exists_divergences_eq_ok (log2 : Float → Float) (profiles : Profiles Float) :
    ∃ m, @ScoreMatrix.divergences Float (withLog log2) profiles = .ok m := by
  have hpair {i j : Nat} (hij : i < j) (hj : j < profiles.ids.length) :
      InRange (2 ^ 54) (@ScoreMatrix.betweenProfiles Float (withLog log2)
        (@Divergence.ofBlocks Float (withLog log2)) profiles.values i j) := by
    refine @ScoreMatrix.forall_betweenProfiles Float (withLog log2) _ _ _ (fun left _ right _ => ?_) _ _ hij hj
    refine inRange_sum fun y hy => ?_
    obtain ⟨value, -, rfl⟩ := List.mem_map.mp hy
    exact Divergence.inRange_guard value
  unfold ScoreMatrix.divergences ScoreMatrix.distances
  refine ⟨_, (@ScoreMatrix.ofScores_eq_ok_iff Float (withLog log2) _ _ _ _).mpr ⟨fun i j hij hj => ?_, rfl⟩⟩
  exact (Bool.and_eq_true _ _).mpr
    ⟨(hpair hij hj).finite, (Bool.not_eq_true' _).mpr (hpair hij hj).lt_zero⟩

/-- Two distributions of which no probability is small have no vanishing mean. -/
theorem not_meanVanishes_of_isFloored {p q : Distribution Float} (hp : p.IsBounded) (hq : q.IsBounded)
    (hp' : p.IsFloored (-118)) (hq' : q.IsFloored (-118)) : ¬Divergence.MeanVanishes p q := by
  have hsmall : smallest < 2 ^ (-118 : ℤ) := zpow_lt_zpow_right₀ one_lt_two (by norm_num)
  rw [Divergence.meanVanishes_iff hp hq]
  rintro (⟨entry, hmem, heq, -⟩ | ⟨entry, hmem, heq, -⟩)
  · exact absurd (hp' _ (List.mem_map_of_mem hmem)) (not_le.mpr (heq ▸ hsmall))
  · exact absurd (hq' _ (List.mem_map_of_mem hmem)) (not_le.mpr (heq ▸ hsmall))

/-- Roles that neither of two blocks uses have no vanishing mean. -/
theorem not_meanVanishes_empty {p q : Distribution Float} (h : (p.isEmpty && q.isEmpty) = true) :
    ¬Divergence.MeanVanishes p q := by
  rw [Bool.and_eq_true] at h
  have hzero {d : Distribution Float} (hempty : d.isEmpty = true) (token : Token) :
      toRat (d.probability token) = 0 := by
    have hnone : d.get? token = none := by
      rw [TokenMap.ext_entries (n := .empty) (List.isEmpty_iff.mp hempty)]
      rfl
    rw [Distribution.probability, hnone, Option.getD_none, toRat_zero]
  rintro ⟨token, hsum⟩
  rw [hzero h.1, hzero h.2, add_zero] at hsum
  exact smallest_pos.ne hsum

/-- The divergence of bounded distributions is degenerate exactly if the mean of some token vanishes. -/
theorem isDegenerate_iff (hlog : IsBinaryLog log2) {p q : Distribution Float} (hp : p.IsBounded)
    (hq : q.IsBounded) :
    Divergence.isDegenerate (@Divergence.jensenShannon Float (withLog log2) p q) = true ↔
      Divergence.MeanVanishes p q := by
  rw [Divergence.isDegenerate, Bool.not_eq_true', ← Bool.not_eq_true,
    Divergence.isFinite_jensenShannon_iff hlog hp hq, not_not]

/-- **Bounded profiles are scored by their divergences**, and none of these is degenerate exactly if no mean
of two blocks vanishes. -/
theorem exists_score_of_isBounded (hlog : IsBinaryLog log2) (hmetric : settings.metric = .jsd)
    {profiles : Profiles Float} (h : profiles.IsBounded) :
    ∃ scores, @score Float (withLog log2) settings profiles = .ok scores ∧
      (scores.nonFinite = 0 ↔ profiles.values.Pairwise fun left right =>
        ∀ role, ¬Divergence.MeanVanishes (left.get role) (right.get role)) := by
  obtain ⟨m, hm⟩ := exists_divergences_eq_ok log2 profiles
  refine ⟨⟨m, none, @ScoreMatrix.degenerateDivergences Float (withLog log2) profiles⟩, ?_, ?_⟩
  · unfold score
    rw [hmetric]
    exact bind_eq_ok_iff.mpr ⟨m, hm, rfl⟩
  · rw [@ScoreMatrix.degenerateDivergences_eq_zero_iff Float (withLog log2)]
    refine List.Pairwise.iff_of_mem fun {left right} hleft hright => ?_
    rw [@Divergence.degenerateCount_eq_zero_iff Float (withLog log2)]
    refine forall_congr' fun role => ?_
    rw [← isDegenerate_iff hlog (h left hleft role) (h right hright role), Bool.not_eq_true]
    cases hempty : (left.get role).isEmpty && (right.get role).isEmpty with
    | false => exact forall_prop_of_true rfl
    | true =>
        refine iff_of_true (fun h => absurd h (by decide)) ?_
        rw [← Bool.not_eq_true, isDegenerate_iff hlog (h left hleft role) (h right hright role)]
        exact not_meanVanishes_empty hempty

/-- **When the fall-back is taken.** The profiles that are loaded from a table can be scored by their
divergences, whatever the table holds. The divergence of two of them in a role is degenerate, and counts as
zero, exactly if the two probabilities of some token add up to the smallest double; so the number of
degenerate divergences is zero exactly if this happens for no two blocks. It never happens unless the table
is one of probabilities. The number of records is that of a table in memory. -/
theorem nonFinite_of_loadProfiles (log2 : Float → Float) (hlog : IsBinaryLog log2)
    (settings : Settings Float) (hmetric : settings.metric = .jsd) (table : Csv.Table)
    (hlength : table.records.length < 2 ^ 62) (profiles : Profiles Float) (skipped : Nat)
    (hload : @loadProfiles Float (withLog log2) _ settings table = .ok (profiles, skipped)) :
    ∃ scores, @score Float (withLog log2) settings profiles = .ok scores ∧
      (scores.nonFinite = 0 ↔ profiles.values.Pairwise fun left right =>
        ∀ role, ¬Divergence.MeanVanishes (left.get role) (right.get role)) ∧
      (settings.inputKind ≠ .probabilities → scores.nonFinite = 0) ∧
      ∀ left ∈ profiles.values, ∀ right ∈ profiles.values, ∀ role,
        Divergence.isDegenerate (@Divergence.jensenShannon Float (withLog log2) (left.get role)
            (right.get role)) = true ↔
          Divergence.MeanVanishes (left.get role) (right.get role) := by
  have hprofiles := probabilities_of_loadProfiles hlength hload
  have hbounded : profiles.IsBounded := fun p hp role => (hprofiles p hp role).1
  obtain ⟨scores, hscore, hcount⟩ := exists_score_of_isBounded hlog hmetric hbounded
  refine ⟨scores, hscore, hcount, fun hkind => hcount.mpr ?_, fun left hleft right hright role =>
    isDegenerate_iff hlog (hbounded left hleft role) (hbounded right hright role)⟩
  refine List.pairwise_of_forall_mem_list fun left hleft right hright role => ?_
  exact not_meanVanishes_of_isFloored (hbounded left hleft role) (hbounded right hright role)
    ((hprofiles left hleft role).2 hkind) ((hprofiles right hright role).2 hkind)

/-- Two blocks with different instructions. -/
def disjointBlocks : Csv.Table where
  headers := ["Block_ID", "Type", "Assembly"]
  records := [⟨2, ["a", "Instruction", "mov"]⟩, ⟨3, ["a", "Instruction", "add"]⟩,
    ⟨4, ["b", "Instruction", "nop"]⟩]

/-- Counted blocks are scored without the fall-back, with the logarithm rounded down. -/
theorem nonFinite_of_disjointBlocks :
    IsBinaryLog floorLog ∧ disjointBlocks.records.length < 2 ^ 62 ∧
    ∃ profiles skipped, @loadProfiles Float (withLog floorLog) _ Settings.standard disjointBlocks =
        .ok (profiles, skipped) ∧
      ∃ scores, @score Float (withLog floorLog) Settings.standard profiles = .ok scores ∧
        scores.nonFinite = 0 := by
  have hlength : disjointBlocks.records.length < 2 ^ 62 := by decide
  have hany : (@loadProfiles Float (withLog floorLog) _ Settings.standard disjointBlocks).toOption.any
      (fun _ => true) = true := by decide +kernel
  obtain ⟨⟨profiles, skipped⟩, hload, -⟩ := exists_ok_of_any hany
  obtain ⟨scores, hscore, -, hcounted, -⟩ := nonFinite_of_loadProfiles floorLog isBinaryLog_floorLog
    Settings.standard rfl disjointBlocks hlength profiles skipped hload
  exact ⟨isBinaryLog_floorLog, hlength, profiles, skipped, hload, scores, hscore, hcounted (by decide)⟩

/-- Two blocks with different instructions, and the smallest double as a probability. -/
def smallestWeight : Csv.Table where
  headers := ["Block_ID", "Type", "Assembly", "Probability"]
  records := [⟨2, ["a", "Instruction", "mov", "1"]⟩, ⟨3, ["a", "Instruction", "add", "5e-324"]⟩,
    ⟨4, ["b", "Instruction", "nop", "1"]⟩]

/-- The settings for tables of probabilities. -/
def probabilitySettings : Settings Float := { Settings.standard with inputKind := .probabilities }

/-- Without the entropy filter no logarithm is taken before blocks are scored. -/
theorem loadProfiles_withLog (log2 : Float → Float) (h : settings.entropyFilter = false) :
    @loadProfiles Float (withLog log2) _ settings table = loadProfiles settings table := by
  have hfiltered : @filtered Float (withLog log2) settings = filtered settings := by
    funext profiles
    have hoff : ¬settings.entropyFilter = true := Bool.eq_false_iff.mp h
    unfold filtered
    rw [if_neg hoff, if_neg hoff]
  unfold loadProfiles
  rw [Ingest.weightedRows_withLog, Ingest.profilesOfWeights_withLog, Ingest.profilesOf_withLog, hfiltered]

/-- **A table can ask for the fall-back**: two blocks without a common instruction are taken for equal,
whatever the logarithm, because one of them has the smallest double among its probabilities. -/
theorem fallBack_of_smallestWeight : ∃ profiles : Profiles Float,
    (∀ log2, @loadProfiles Float (withLog log2) _ probabilitySettings smallestWeight =
      .ok (profiles, 0)) ∧
    (∃ left right, profiles.values[0]? = some left ∧ profiles.values[1]? = some right ∧
      ∀ token ∈ (left.get .instruction).tokens, token ∉ (right.get .instruction).tokens) ∧
    (∀ log2, IsBinaryLog log2 → ∃ scores,
      @score Float (withLog log2) probabilitySettings profiles = .ok scores ∧ scores.nonFinite ≠ 0) ∧
    ∃ scores, @score Float (withLog floorLog) probabilitySettings profiles = .ok scores ∧
      scores.nonFinite = 1 ∧ eq (scores.distances.cell 0 1) zero = true := by
  have hloaded : (loadProfiles probabilitySettings smallestWeight).toOption.any (fun loaded =>
      loaded.2 == 0 && loaded.1.values[0]?.any fun left => loaded.1.values[1]?.any fun right =>
        (left.get .instruction).tokens.all (fun token => token ∉ (right.get .instruction).tokens) &&
          decide ((left.get .instruction).probability "add" = Divergence.smallestDouble) &&
          decide ((right.get .instruction).probability "add" = (zero : Float))) = true := by
    decide +kernel
  have hscored : (@loadProfiles Float (withLog floorLog) _ probabilitySettings
      smallestWeight).toOption.any (fun loaded =>
        (@score Float (withLog floorLog) probabilitySettings loaded.1).toOption.any fun scores =>
          decide (scores.nonFinite = 1) && eq (scores.distances.cell 0 1) zero) = true := by
    decide +kernel
  obtain ⟨⟨profiles, skipped⟩, hload, hproperty⟩ := exists_ok_of_any hloaded
  obtain ⟨hskipped, hvalues⟩ := (Bool.and_eq_true _ _).mp hproperty
  obtain rfl : skipped = 0 := eq_of_beq hskipped
  obtain ⟨left, hfirst, hvalues⟩ := (Option.any_eq_true _ _).mp hvalues
  obtain ⟨right, hsecond, hvalues⟩ := (Option.any_eq_true _ _).mp hvalues
  simp only [Bool.and_eq_true, List.all_eq_true, decide_eq_true_eq] at hvalues
  obtain ⟨⟨hdisjoint, hleft⟩, hright⟩ := hvalues
  have hload' (log2 : Float → Float) :
      @loadProfiles Float (withLog log2) _ probabilitySettings smallestWeight = .ok (profiles, 0) :=
    (loadProfiles_withLog log2 rfl).trans hload
  rw [hload' floorLog, Except.toOption, Option.any_some] at hscored
  obtain ⟨scores, hscore, hresult⟩ := exists_ok_of_any hscored
  obtain ⟨hcount, hcell⟩ := (Bool.and_eq_true _ _).mp hresult
  refine ⟨profiles, hload', ⟨left, right, hfirst, hsecond, hdisjoint⟩, fun log2 hlog => ?_, scores, hscore,
    of_decide_eq_true hcount, hcell⟩
  have hprofiles := probabilities_of_loadProfiles (by decide) (hload' log2)
  have hmetric : probabilitySettings.metric = .jsd := rfl
  obtain ⟨scores, hscore, hcount⟩ :=
    exists_score_of_isBounded hlog hmetric fun p hp role => (hprofiles p hp role).1
  refine ⟨scores, hscore, fun hzero => ?_⟩
  obtain ⟨hi, rfl⟩ := List.getElem?_eq_some_iff.mp hfirst
  obtain ⟨hj, rfl⟩ := List.getElem?_eq_some_iff.mp hsecond
  have hkept := List.pairwise_iff_getElem.mp (hcount.mp hzero) 0 1 hi hj Nat.zero_lt_one .instruction
  refine hkept ⟨"add", ?_⟩
  rw [hleft, hright, Divergence.toRat_smallestDouble, toRat_zero, add_zero]

end Analysis

end BlockAffinity
