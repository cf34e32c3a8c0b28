import BlockAffinity.Ingest.Occurrences
import BlockAffinity.Proofs.Distribution
import BlockAffinity.Proofs.Roster

/-!
# BlockAffinity.Proofs.Ingest.Counts

**Occurrences are counted one by one.** A tally lists each token with the number of times it was
observed (`get?_tallyOf`), and its total is the number of observations of its block and role
(`sum_tallyOf`). So the relative frequencies of fewer than `2 ^ 64` occurrences are between zero and
one in doubles (`isBounded_profilesOf`).
-/

namespace BlockAffinity

open Double Scalar

namespace Ingest

theorem tallies_append (observations : List Observation) (o : Observation) :
    tallies (observations ++ [o]) = (tallies observations).alter o.block fun old =>
      Tally.add (old.getD (.replicate .empty)) o.role o.token := by
  simp [tallies]

/-- The tally of a block, empty for a block that was not observed. -/
def tallyOf (observations : List Observation) (id : BlockId) : Tally :=
  ((tallies observations).get? id).getD (.replicate .empty)

theorem tallyOf_of_get? {observations : List Observation} {id : BlockId} {tally : Tally}
    (h : (tallies observations).get? id = some tally) : tallyOf observations id = tally := by
  rw [tallyOf, h, Option.getD_some]

theorem tallyOf_append (observations : List Observation) (o : Observation) (id : BlockId) :
    tallyOf (observations ++ [o]) id =
      if o.block = id then (tallyOf observations id).add o.role o.token
      else tallyOf observations id := by
  rw [tallyOf, tallies_append, Roster.get?_alter]
  split
  · rename_i hblock
    subst hblock
    rfl
  · rfl

/-- An occurrence counts for its own role and token only. -/
theorem Tally.get?_add (tally : Tally) (role other : Role) (token key : Token) :
    ((tally.add role token).get other).get? key =
      if role = other ∧ token = key then some (((tally.get other).get? key).getD 0 + 1)
      else (tally.get other).get? key := by
  rw [Tally.add, PerRole.get_modify]
  by_cases hrole : role = other
  · rw [if_pos hrole, TokenMap.get?_alter]
    by_cases htoken : token = key
    · rw [if_pos htoken, if_pos ⟨hrole, htoken⟩, htoken]
    · rw [if_neg htoken, if_neg fun h => htoken h.2]
  · rw [if_neg hrole, if_neg fun h => hrole h.1]

/-- How a tally lists what was observed this often. -/
def listed (count : Nat) : Option Nat := if count = 0 then none else some count

/-- **A tally counts the observations** of each token. -/
theorem get?_tallyOf (observations : List Observation) (o : Observation) :
    ((tallyOf observations o.block).get o.role).get? o.token = listed (observations.count o) := by
  induction observations using List.reverseRecOn with
  | nil =>
      rw [tallyOf, tallies, List.foldl_nil, Roster.get?_empty, Option.getD_none, PerRole.get_replicate]
      rfl
  | append_singleton observations last ih =>
      have hsame : last = o ↔ last.block = o.block ∧ last.role = o.role ∧ last.token = o.token := by
        cases last
        cases o
        simp
      rw [tallyOf_append, List.count_append, List.count_singleton]
      by_cases hblock : last.block = o.block
      · rw [if_pos hblock, Tally.get?_add, ih]
        by_cases hrest : last.role = o.role ∧ last.token = o.token
        · rw [if_pos hrest, if_pos (beq_iff_eq.mpr (hsame.mpr ⟨hblock, hrest⟩))]
          by_cases hzero : observations.count o = 0 <;> simp [listed, hzero]
        · rw [if_neg hrest, if_neg fun heq => hrest (hsame.mp (beq_iff_eq.mp heq)).2, Nat.add_zero]
      · rw [if_neg hblock, ih, if_neg fun heq => hblock (hsame.mp (beq_iff_eq.mp heq)).1,
          Nat.add_zero]

/-- How many observations a block has in a role. -/
def groupSize (observations : List Observation) (id : BlockId) (role : Role) : Nat :=
  observations.countP fun o => o.block = id ∧ o.role = role

/-- **The total of a tally** is the number of observations of the block in the role. -/
theorem sum_tallyOf (observations : List Observation) (id : BlockId) (role : Role) :
    ((tallyOf observations id).get role).values.sum = groupSize observations id role := by
  induction observations using List.reverseRecOn with
  | nil =>
      rw [tallyOf, tallies, List.foldl_nil, Roster.get?_empty, Option.getD_none, PerRole.get_replicate]
      rfl
  | append_singleton observations last ih =>
      rw [tallyOf_append, groupSize, List.countP_append, ← groupSize]
      by_cases hblock : last.block = id
      · rw [if_pos hblock, Tally.add, PerRole.get_modify]
        by_cases hrole : last.role = role
        · rw [if_pos hrole, TokenMap.sum_values_count, ih]
          simp [hblock, hrole]
        · rw [if_neg hrole, ih]
          simp [hrole]
      · rw [if_neg hblock, ih]
        simp [hblock]

/-- A tally counts at most all occurrences. -/
theorem sum_tally_le {observations : List Observation} {id : BlockId} {tally : Tally}
    (h : (tallies observations).get? id = some tally) (role : Role) :
    (tally.get role).values.sum ≤ observations.length := by
  rw [← tallyOf_of_get? h, sum_tallyOf]
  exact List.countP_le_length

end Ingest

/-! ### Profiles -/

/-- Every listed probability of a block is between zero and one. -/
def Profile.IsBounded (p : Profile Float) : Prop := ∀ role, Distribution.IsBounded (p.get role)

/-- Every listed probability is between zero and one. -/
def Profiles.IsBounded (profiles : Profiles Float) : Prop :=
  ∀ p ∈ profiles.values, Profile.IsBounded p

namespace Ingest

/-- **Observed blocks** have probabilities between zero and one. -/
theorem isBounded_profilesOf {observations : List Observation}
    (h : observations.length < 2 ^ 64) : Profiles.IsBounded (profilesOf observations) := by
  intro p hp role
  obtain ⟨id, tally, htally, hsome⟩ := Roster.mem_values_filterMap.mp hp
  obtain rfl := Option.some.inj hsome
  rw [PerRole.get_map]
  refine Distribution.isBounded_ofCounts (le_trans ?_ (two_pow_le_largest (n := 64) (by norm_num)))
  exact_mod_cast (sum_tally_le htally role).trans h.le

end Ingest

/-- What the entropy filter keeps of a block, it keeps of a block that was there. -/
theorem Entropy.exists_of_mem_filterProfiles {α : Type} [Scalar α] {profiles : Profiles α}
    {profile : Profile α} (h : profile ∈ (filterProfiles profiles).values) :
    ∃ before ∈ profiles.values, ∀ role, profile.get role = filterDistribution (before.get role) := by
  obtain ⟨id, before, hbefore, hkept⟩ := Roster.mem_values_filterMap.mp h
  dsimp only at hkept
  split at hkept
  · exact absurd hkept (by simp)
  · obtain rfl := Option.some.inj hkept
    refine ⟨before, Roster.mem_values_iff.mpr ⟨id, hbefore⟩, fun role => ?_⟩
    rw [filterProfile, PerRole.get_map]

/-- The entropy filter keeps probabilities between zero and one. -/
theorem Entropy.isBounded_filterProfiles {profiles : Profiles Float}
    (h : Profiles.IsBounded profiles) : Profiles.IsBounded (filterProfiles profiles) := by
  intro p hp role
  obtain ⟨before, hbefore, hget⟩ := exists_of_mem_filterProfiles hp
  rw [hget]
  exact isBounded_filterDistribution (h before hbefore role)

end BlockAffinity
