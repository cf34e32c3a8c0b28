import BlockAffinity.Proofs.Ingest.Groups
import BlockAffinity.Proofs.Number.Exact
import BlockAffinity.Proofs.Profile

/-!
# BlockAffinity.Proofs.Ingest.Frequencies

**Profiles of observations are relative frequencies**, whatever the order in which blocks and roles
alternate (`Profiles.AreFrequencies`). A block is known by its tally (`Ingest.get?_profilesOf`), and a
tally by how often each observation was made, so the order of the observations decides about the order
of the blocks alone (`Ingest.frequencies_of_observations`). All of this holds with any scalars, since
nothing but whole numbers is added up.
-/

namespace BlockAffinity

open Scalar

/-- Rosters with one view list the same entries. -/
theorem Roster.perm_entries {β : Type} {r s : Roster β} (h : ∀ id, r.get? id = s.get? id) :
    r.entries.Perm s.entries := by
  rw [List.perm_ext_iff_of_nodup (List.Nodup.of_map _ r.distinct) (List.Nodup.of_map _ s.distinct)]
  rintro ⟨id, value⟩
  rw [mem_entries_iff, mem_entries_iff, h]

/-- A token that was counted has its share of the total. -/
theorem Distribution.get?_ofCounts_eq_some_iff {α : Type} [Scalar α] {counts : TokenMap Nat}
    {token : Token} {p : α} :
    (ofCounts counts : Distribution α).get? token = some p ↔
      ∃ count, counts.get? token = some count ∧ 0 < count ∧
        p = ofNat count / ofNat counts.values.sum := by
  rw [ofCounts_eq]
  split
  · rename_i hzero
    refine iff_of_false (by simp) ?_
    rintro ⟨count, hcount, hpos, -⟩
    have hle : count ≤ counts.values.sum :=
      List.single_le_sum (by simp) count (TokenMap.mem_values_iff.mpr ⟨token, hcount⟩)
    omega
  · rw [TokenMap.get?_map_eq_some_iff]
    simp only [TokenMap.get?_filter_eq_some_iff, decide_eq_true_eq, and_assoc, eq_comm (a := p)]

/-- Profiles that hold the relative frequencies of observations. -/
structure Profiles.AreFrequencies {α : Type} [Scalar α] (profiles : Profiles α)
    (observations : List Observation) : Prop where
  /-- Every observed block is listed once, in order of first appearance. -/
  ids : profiles.ids = (observations.map Observation.block).eraseDups
  /-- A role is stored if something was observed in it. -/
  stored : ∀ id profile, profiles.get? id = some profile → ∀ role,
    (Profile.get? profile role).isSome = true ↔ ∃ o ∈ observations, o.block = id ∧ o.role = role
  /-- The tokens are those that were observed, each with its share of the observations. -/
  share : ∀ id profile, profiles.get? id = some profile → ∀ role d,
    Profile.get? profile role = some d → ∀ token p, d.get? token = some p ↔
      ⟨id, role, token⟩ ∈ observations ∧
        p = ofNat (observations.count ⟨id, role, token⟩) /
          ofNat (observations.countP fun o => o.block = id ∧ o.role = role)

namespace Ingest

section

variable {α : Type} [Scalar α] {observations : List Observation} {id : BlockId} {role : Role}

/-- **A block that was observed** has the frequencies of its tally. -/
theorem get?_profilesOf (observations : List Observation) (id : BlockId) :
    (profilesOf observations : Profiles α).get? id =
      if id ∈ observations.map Observation.block
      then some ((tallyOf observations id).map Distribution.ofCounts) else none := by
  have hmem : id ∈ observations.map Observation.block ↔
      ∃ tally, (tallies observations).get? id = some tally := by
    rw [← List.mem_eraseDups, ← ids_tallies, Roster.mem_ids_iff]
  rw [profilesOf, Roster.map, Roster.get?_filterMap, tallyOf]
  cases htally : (tallies observations).get? id with
  | none => exact (if_neg (by simp [hmem, htally])).symm
  | some tally => exact (if_pos (hmem.mpr ⟨tally, htally⟩)).symm

/-- The share of a token in the observations of a block and a role. -/
theorem get?_frequency {token : Token} {p : α} :
    (Distribution.ofCounts ((tallyOf observations id).get role) : Distribution α).get? token = some p ↔
      ⟨id, role, token⟩ ∈ observations ∧
        p = ofNat (observations.count ⟨id, role, token⟩) / ofNat (groupSize observations id role) := by
  rw [Distribution.get?_ofCounts_eq_some_iff, sum_tallyOf, ← List.count_pos_iff]
  have hlisted := get?_tallyOf observations ⟨id, role, token⟩
  dsimp only at hlisted
  rw [hlisted, listed]
  by_cases hzero : observations.count ⟨id, role, token⟩ = 0
  · simp [hzero]
  · simp [hzero, Nat.pos_of_ne_zero hzero]

theorem isEmpty_frequencies :
    (Distribution.ofCounts ((tallyOf observations id).get role) : Distribution α).isEmpty = false ↔
      ∃ o ∈ observations, o.block = id ∧ o.role = role := by
  rw [TokenMap.isEmpty, List.isEmpty_eq_false_iff_exists_mem]
  constructor
  · rintro ⟨⟨token, p⟩, hentry⟩
    exact ⟨_, (get?_frequency.mp (TokenMap.mem_entries_iff.mp hentry)).1, rfl, rfl⟩
  · rintro ⟨o, ho, rfl, rfl⟩
    exact ⟨(o.token, _), TokenMap.mem_entries_iff.mpr (get?_frequency.mpr ⟨ho, rfl⟩)⟩

theorem areFrequencies_profilesOf (observations : List Observation) :
    (profilesOf observations : Profiles α).AreFrequencies observations := by
  have hprofile {id : BlockId} {profile : Profile α}
      (h : (profilesOf observations : Profiles α).get? id = some profile) (role : Role) :
      profile.get role = Distribution.ofCounts ((tallyOf observations id).get role) := by
    rw [get?_profilesOf, Option.ite_none_right_eq_some] at h
    rw [← Option.some.inj h.2, PerRole.get_map]
  refine ⟨ids_profilesOf observations, fun id profile h role => ?_, fun id profile h role d hd => ?_⟩
  · rw [← isEmpty_frequencies (α := α), ← hprofile h, Option.isSome_iff_exists]
    simp only [Profile.get?_eq_some_iff, exists_eq_left']
  · obtain ⟨rfl, -⟩ := Profile.get?_eq_some_iff.mp hd
    rw [hprofile h]
    exact fun token p => get?_frequency

end

/-- A tally does not tell in which order the observations were made. -/
theorem tallyOf_perm {observations reordered : List Observation} (h : reordered.Perm observations)
    (id : BlockId) : tallyOf reordered id = tallyOf observations id := by
  refine PerRole.ext_get fun role => TokenMap.ext_get? fun token => ?_
  have hcount (list : List Observation) := get?_tallyOf list ⟨id, role, token⟩
  dsimp only at hcount
  rw [hcount, hcount, h.count_eq]

/-- **Profiles of observations.** With any scalars, the profiles hold the relative frequencies of the
observations; reordering these gives the same profiles, at most with the blocks in another order. -/
theorem frequencies_of_observations (α : Type) [Scalar α] (observations : List Observation) :
    (profilesOf observations : Profiles α).AreFrequencies observations ∧
      ∀ reordered : List Observation, reordered.Perm observations →
        (profilesOf reordered : Profiles α).entries.Perm
          (profilesOf observations : Profiles α).entries := by
  refine ⟨areFrequencies_profilesOf observations, fun reordered h => ?_⟩
  refine Roster.perm_entries fun id => ?_
  rw [get?_profilesOf, get?_profilesOf, tallyOf_perm h]
  exact if_congr (h.map Observation.block).mem_iff rfl rfl

/-- Observations of two blocks that alternate. -/
def interleaved : List Observation :=
  [⟨⟨"b"⟩, .instruction, "mov"⟩, ⟨⟨"a"⟩, .instruction, "add"⟩, ⟨⟨"b"⟩, .leftOperand, "eax"⟩,
    ⟨⟨"b"⟩, .instruction, "add"⟩, ⟨⟨"b"⟩, .instruction, "mov"⟩, ⟨⟨"a"⟩, .rightOperand, "eax"⟩]

/-- Read backwards, they give the same profiles with the blocks exchanged. -/
theorem frequencies_of_interleaved :
    interleaved.reverse.Perm interleaved ∧
      (profilesOf interleaved.reverse : Profiles Float).entries.Perm
        (profilesOf interleaved : Profiles Float).entries ∧
      (profilesOf interleaved : Profiles ℚ).ids = [⟨"b"⟩, ⟨"a"⟩] ∧
      (profilesOf interleaved.reverse : Profiles ℚ).ids = [⟨"a"⟩, ⟨"b"⟩] ∧
      ∃ profile d, (profilesOf interleaved : Profiles ℚ).get? ⟨"b"⟩ = some profile ∧
        Profile.get? profile .instruction = some d ∧ d.get? "mov" = some (2 / 3) := by
  have hperm : interleaved.reverse.Perm interleaved := interleaved.reverse_perm
  refine ⟨hperm, (frequencies_of_observations Float interleaved).2 _ hperm, ?_, ?_, ?_⟩
  · rw [(frequencies_of_observations ℚ interleaved).1.ids]
    decide +kernel
  · rw [(frequencies_of_observations ℚ interleaved.reverse).1.ids]
    decide +kernel
  · refine ⟨_, _, rfl, rfl, ?_⟩
    decide +kernel

end Ingest

end BlockAffinity
