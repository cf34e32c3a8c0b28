import BlockAffinity.Proofs.Distribution.Normal
import BlockAffinity.Proofs.Ingest.Accepted
import BlockAffinity.Proofs.Ingest.Groups
import BlockAffinity.Proofs.Number.RationalText
import BlockAffinity.Proofs.Profile

/-!
# BlockAffinity.Proofs.Ingest.Normal

**What is loaded is normal.** In exact arithmetic every block that is loaded has something observed in
it, and its distributions are normal (`Profiles.IsNormal`), whether occurrences are counted or weights
are divided, and also behind the entropy filter.

Blocks are dropped where nothing is left of them and are never moved, so they keep the order in which
they come in what was accepted.
-/

namespace BlockAffinity

variable {α K : Type} [Scalar α] [ExactField K]

/-! ### Normal profiles -/

namespace Profile

/-- A block in which something was observed, with normal distributions. -/
structure IsNormal (p : Profile K) : Prop where
  observed : p.isEmpty = false
  normal : ∀ role, (p.get role).IsNormal

end Profile

/-- Every block has something observed in it and normal distributions. -/
def Profiles.IsNormal (profiles : Profiles K) : Prop := ∀ p ∈ profiles.values, Profile.IsNormal p

namespace Ingest

/-! ### Profiles of observations -/

theorem isNormal_profilesOf {observations : List Observation} (h : ∀ o ∈ observations, o.IsTrimmed) :
    Profiles.IsNormal (profilesOf observations : Profiles K) := by
  intro p hp
  obtain ⟨id, tally, htally, hsome⟩ := Roster.mem_values_filterMap.mp hp
  obtain rfl := Option.some.inj hsome
  refine ⟨Profile.isEmpty_eq_false_iff.mpr ?_, fun role => ?_⟩
  · obtain ⟨role, hrole⟩ := exists_sum_tally_pos htally
    refine ⟨role, ?_⟩
    rw [PerRole.get_map]
    exact Distribution.isEmpty_ofCounts hrole
  · rw [PerRole.get_map]
    refine Distribution.isNormal_ofCounts fun token htoken => ?_
    obtain ⟨o, ho, rfl⟩ := exists_of_mem_tally htally htoken
    exact (h o ho).2

/-! ### Profiles of weights -/

theorem ids_profilesOfWeights_sublist (rows : List (Weighted α)) :
    (profilesOfWeights rows).ids.Sublist
      (rows.map fun row => row.observation.block).eraseDups := by
  rw [← ids_weightGroups]
  exact Roster.ids_filterMap_sublist _ _

theorem isNormal_profilesOfWeights {rows : List (Weighted K)}
    (h : ∀ row ∈ rows, row.observation.IsTrimmed) : Profiles.IsNormal (profilesOfWeights rows) := by
  intro p hp
  obtain ⟨id, groups, hgroups, hkept⟩ := Roster.mem_values_filterMap.mp hp
  rw [Option.ite_none_left_eq_some, Bool.not_eq_true] at hkept
  obtain ⟨hobserved, hsome⟩ := hkept
  obtain rfl := Option.some.inj hsome
  refine ⟨hobserved, fun role => ?_⟩
  rw [PerRole.get_map, get_weightGroups hgroups]
  refine Distribution.isNormal_ofWeights fun token htoken => ?_
  rw [weightsOf, List.map_map, List.mem_map] at htoken
  obtain ⟨row, hrow, rfl⟩ := htoken
  exact (h row (List.mem_of_mem_filter hrow)).2

end Ingest

/-! ### The entropy filter -/

theorem Entropy.isNormal_filterProfiles {profiles : Profiles K} (h : Profiles.IsNormal profiles) :
    Profiles.IsNormal (filterProfiles profiles) := by
  intro p hp
  obtain ⟨id, profile, hprofile, hkept⟩ := Roster.mem_values_filterMap.mp hp
  rw [Option.ite_none_left_eq_some, Bool.not_eq_true] at hkept
  obtain ⟨hobserved, hsome⟩ := hkept
  obtain rfl := Option.some.inj hsome
  refine ⟨hobserved, fun role => ?_⟩
  rw [filterProfile, PerRole.get_map]
  exact isNormal_filterDistribution ((h profile (Roster.mem_values_iff.mpr ⟨id, hprofile⟩)).normal role)

namespace Analysis

variable {settings : Settings α}

theorem ids_filtered_sublist (profiles : Profiles α) :
    (filtered settings profiles).ids.Sublist profiles.ids := by
  rw [filtered]
  split
  · exact Roster.ids_filterMap_sublist _ _
  · exact .refl _

theorem isNormal_filtered {settings : Settings K} {profiles : Profiles K}
    (h : Profiles.IsNormal profiles) : Profiles.IsNormal (filtered settings profiles) := by
  rw [filtered]
  split
  · exact Entropy.isNormal_filterProfiles h
  · exact h

/-! ### What is loaded -/

/-- What is loaded is normal and about blocks that were accepted, in the order in which they come. -/
theorem isNormal_of_loadProfiles [ScalarText K] {settings : Settings K} {table : Csv.Table}
    {loaded : Profiles K × Nat} (h : loadProfiles settings table = .ok loaded) :
    Profiles.IsNormal loaded.1 ∧
      ∃ observations, acceptedObservations settings table = .ok observations ∧
        (∀ o ∈ observations, o.IsTrimmed) ∧
        loaded.1.ids.Sublist (observations.map Observation.block).eraseDups := by
  obtain ⟨observations, haccepted, htrimmed, hloaded⟩ := accepted_of_loadProfiles h
  have hcounted (heq : loaded.1 = filtered settings (Ingest.profilesOf observations)) :
      Profiles.IsNormal loaded.1 ∧
        loaded.1.ids.Sublist (observations.map Observation.block).eraseDups := by
    rw [heq, ← Ingest.ids_profilesOf (α := K)]
    exact ⟨isNormal_filtered (Ingest.isNormal_profilesOf htrimmed), ids_filtered_sublist _⟩
  have hboth : Profiles.IsNormal loaded.1 ∧
      loaded.1.ids.Sublist (observations.map Observation.block).eraseDups := by
    cases hkind : settings.inputKind with
    | occurrences =>
        rw [hkind] at hloaded
        exact hcounted hloaded
    | disassembly =>
        rw [hkind] at hloaded
        exact hcounted hloaded
    | probabilities =>
        rw [hkind] at hloaded
        obtain ⟨rows, rfl, heq⟩ := hloaded
        rw [heq, List.map_map]
        exact ⟨isNormal_filtered (Ingest.isNormal_profilesOfWeights fun row hrow =>
            htrimmed _ (List.mem_map_of_mem hrow)),
          (ids_filtered_sublist _).trans (Ingest.ids_profilesOfWeights_sublist rows)⟩
  exact ⟨hboth.1, observations, haccepted, htrimmed, hboth.2⟩

/-- **The invariant of what is loaded**, for every table and all settings, in exact arithmetic and with
any function for the logarithm. The ids of the blocks are trimmed, no two are the same, and they come
in the order of what was accepted. Each block has a role in which something was observed, and each
stored distribution lists trimmed tokens, at least one, with positive probabilities up to one that add
up to one. -/
theorem normal_of_loadProfiles [ScalarText K] {settings : Settings K} {table : Csv.Table}
    {profiles : Profiles K} {skipped : Nat}
    (h : loadProfiles settings table = .ok (profiles, skipped)) :
    profiles.ids.Nodup ∧ (∀ id ∈ profiles.ids, Text.IsTrimmed id.text) ∧
      (∃ observations, acceptedObservations settings table = .ok observations ∧
        profiles.ids.Sublist (observations.map Observation.block).eraseDups) ∧
      ∀ profile ∈ profiles.values, profile.roles ≠ [] ∧
        ∀ role d, profile.get? role = some d → d.entries ≠ [] ∧
          (∀ token p, (token, p) ∈ d.entries → Text.IsTrimmed token ∧ 0 < p ∧ p ≤ 1) ∧
          d.total = 1 := by
  obtain ⟨hnormal, observations, haccepted, htrimmed, hids⟩ := isNormal_of_loadProfiles h
  refine ⟨profiles.distinct, fun id hid => ?_, ⟨observations, haccepted, hids⟩,
    fun profile hprofile => ⟨?_, fun role d hd => ?_⟩⟩
  · obtain ⟨o, ho, rfl⟩ := List.mem_map.mp (List.mem_eraseDups.mp (hids.subset hid))
    exact (htrimmed o ho).1
  · exact List.isEmpty_eq_false_iff.mp (hnormal profile hprofile).observed
  · obtain ⟨rfl, hempty⟩ := Profile.get?_eq_some_iff.mp hd
    have hd := (hnormal profile hprofile).normal role
    refine ⟨List.isEmpty_eq_false_iff.mp hempty, fun token p hentry => ?_, hd.total_eq hempty⟩
    have hp : p ∈ (profile.get role).values := List.mem_map.mpr ⟨_, hentry, rfl⟩
    exact ⟨hd.trimmed token (List.mem_map.mpr ⟨_, hentry, rfl⟩), hd.positive p hp, hd.le_one hp⟩

/-- Weights over the rationals with blanks around a block, a row that is skipped and the filter on,
which keeps two of the four tokens of a block. -/
theorem normal_of_loadProfiles_filtered :
    let settings : Settings ℚ :=
      ⟨.probabilities, .jsd, .average, none, true, .skip, false, false, []⟩
    let table : Csv.Table := ⟨["Block_ID", "Type", "Assembly", "Probability"],
      [⟨2, [" a ", "Instruction", "mov", "4"]⟩, ⟨3, ["b", "Instruction", "nop", "none"]⟩,
        ⟨4, ["a", "instruction", "add", "2"]⟩, ⟨5, ["c", "Left Operand", "eax", "0.5"]⟩,
        ⟨6, ["a", "Instruction", "lea", "1"]⟩, ⟨7, ["a", "Instruction", "sub", "1"]⟩]⟩
    ∃ profiles : Profiles ℚ, loadProfiles settings table = .ok (profiles, 1) ∧
      profiles.entries.map (fun entry => (entry.1.text, entry.2.instruction.entries)) =
        [("a", [("add", 1 / 3), ("mov", 2 / 3)]), ("c", [])] ∧
      (∀ id ∈ profiles.ids, Text.IsTrimmed id.text) ∧
      ∀ profile ∈ profiles.values, profile.roles ≠ [] ∧
        ∀ role d, profile.get? role = some d → d.total = 1 := by
  intro settings table
  have hloaded : (loadProfiles settings table).toOption.map (fun loaded =>
      (loaded.1.entries.map fun entry => (entry.1.text, entry.2.instruction.entries), loaded.2)) =
        some ([("a", [("add", 1 / 3), ("mov", 2 / 3)]), ("c", [])], 1) := by
    decide +kernel
  cases h : loadProfiles settings table with
  | error fault => simp [h, Except.toOption] at hloaded
  | ok loaded =>
      obtain ⟨profiles, skipped⟩ := loaded
      rw [h, Except.toOption, Option.map_some, Option.some.injEq, Prod.mk.injEq] at hloaded
      obtain ⟨hentries, rfl⟩ := hloaded
      obtain ⟨-, htrimmed, -, hprofiles⟩ := normal_of_loadProfiles h
      exact ⟨profiles, rfl, hentries, htrimmed, fun profile hprofile =>
        ⟨(hprofiles profile hprofile).1, fun role d hd => ((hprofiles profile hprofile).2 role d hd).2.2⟩⟩

end Analysis

end BlockAffinity
