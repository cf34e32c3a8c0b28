import BlockAffinity.Proofs.Ingest.Frequencies
import BlockAffinity.Proofs.Number.Counting

/-!
# BlockAffinity.Proofs.Ingest.UnitWeights

**Counting is weighing with ones.** If every observation has the weight one, adding up the weights of a
token counts its observations (`Distribution.accumulate_ones`), and the total is the number of all of
them; so the weights and the counts of a group give one distribution (`Distribution.ofWeights_ones`).
No group is without weight, so no block is dropped (`Ingest.profilesOfWeights_eq`).
-/

namespace BlockAffinity

open Scalar

/-- What is listed after one more observation. -/
theorem Ingest.getD_map_listed {α : Type} [Scalar α] {limit : Nat} (h : CountsUpTo α limit)
    (count : Nat) : ((listed count).map (ofNat : Nat → α)).getD zero = ofNat count := by
  rw [listed]
  split
  · rename_i hzero
    rw [hzero, Option.map_none, Option.getD_none, h.zero_eq]
  · rw [Option.map_some, Option.getD_some]

namespace Distribution

open Ingest

variable {α : Type} [Scalar α] {limit : Nat} {tokens : List Token} {counts : TokenMap Nat}

/-- **Weights of one** add up to the number of times that the token occurs. -/
theorem accumulate_ones (h : CountsUpTo α limit) (hlimit : tokens.length ≤ limit) (token : Token) :
    (accumulate (tokens.map fun token => (token, (one : α)))).get? token =
      (listed (tokens.count token)).map ofNat := by
  induction tokens using List.reverseRecOn with
  | nil => rfl
  | append_singleton tokens last ih =>
      rw [List.length_append, List.length_singleton] at hlimit
      have hone : lt (zero : α) one = true := by
        rw [h.one_eq]
        exact h.positive 1 ((Nat.le_add_left _ _).trans hlimit) Nat.one_pos
      have hbefore := ih ((Nat.le_succ _).trans hlimit)
      rw [List.map_append, List.map_singleton, accumulate_append, addWeight, if_pos hone,
        TokenMap.get?_alter, List.count_append, List.count_singleton]
      by_cases htoken : last = token
      · subst htoken
        have hcount : tokens.count last + 1 ≤ limit :=
          (Nat.succ_le_succ List.count_le_length).trans hlimit
        rw [if_pos rfl, hbefore, getD_map_listed h, h.one_eq, h.add _ _ hcount, beq_self_eq_true,
          if_pos rfl, listed, if_neg (Nat.succ_ne_zero _), Option.map_some]
      · rw [if_neg htoken, hbefore, if_neg (by simpa using htoken), Nat.add_zero]

/-- Dividing whole numbers by their total gives relative frequencies. -/
theorem normalize_map_ofNat [OrderedScalar α] (h : CountsUpTo α limit)
    (hlimit : counts.values.sum ≤ limit) (hpositive : ∀ count ∈ counts.values, 0 < count) :
    normalize (counts.map ofNat) = (ofCounts counts : Distribution α) := by
  rw [normalize, TokenMap.values_map, ofCounts_eq]
  cases hcounts : counts.entries with
  | nil =>
      have hsum : counts.values.sum = 0 := by rw [TokenMap.values, hcounts, List.map_nil, List.sum_nil]
      rw [if_pos hsum]
      refine TokenMap.ext_entries ?_
      split
      · rfl
      · simp [TokenMap.map, TokenMap.empty, hcounts]
  | cons entry rest =>
      have hne : counts.values ≠ [] := by simp [TokenMap.values, hcounts]
      have hpos : 0 < counts.values.sum := by
        obtain ⟨count, hcount⟩ := List.exists_mem_of_ne_nil _ hne
        exact (hpositive count hcount).trans_le (List.single_le_sum (by simp) count hcount)
      have hle : le (ofNat counts.values.sum : α) zero = false := by
        rw [Bool.eq_false_iff]
        intro hle
        have hnot := (OrderedScalar.le_iff.mp hle).2.2
        rw [h.positive _ hlimit hpos] at hnot
        cases hnot
      rw [h.sum_map_ofNat hne hlimit, if_neg hpos.ne', hle, h.finite _ hlimit, if_neg (by decide)]
      refine TokenMap.ext_entries ?_
      have hall : counts.entries.filter (fun entry => decide (0 < entry.2)) = counts.entries :=
        List.filter_eq_self.mpr fun entry hentry =>
          decide_eq_true (hpositive entry.2 (List.mem_map_of_mem hentry))
      simp only [TokenMap.map, TokenMap.filter, hall, List.map_map, Function.comp_def]

/-- **The distribution of weights of one** is that of the counts. -/
theorem ofWeights_ones [OrderedScalar α] (h : CountsUpTo α limit) (hlimit : tokens.length ≤ limit)
    (hsum : counts.values.sum = tokens.length)
    (hcounts : ∀ token, counts.get? token = listed (tokens.count token)) :
    ofWeights (tokens.map fun token => (token, (one : α))) = ofCounts counts := by
  have haccumulated : accumulate (tokens.map fun token => (token, (one : α))) = counts.map ofNat := by
    refine TokenMap.ext_get? fun token => ?_
    rw [accumulate_ones h hlimit, ← hcounts]
    ext value
    rw [TokenMap.get?_map_eq_some_iff, Option.map_eq_some_iff]
  rw [ofWeights, haccumulated, normalize_map_ofNat h (hsum ▸ hlimit)]
  intro count hcount
  obtain ⟨token, htoken⟩ := TokenMap.mem_values_iff.mp hcount
  rw [hcounts, listed, Option.ite_none_left_eq_some] at htoken
  have := Option.some.inj htoken.2
  omega

end Distribution

namespace Ingest

/-- An observation with the weight one. -/
def unit {α : Type} [Scalar α] (o : Observation) : Weighted α := ⟨o, one⟩

section

variable {α : Type} [Scalar α] {limit : Nat} {observations : List Observation} {id : BlockId}

/-- The tokens of a block and a role, one by one. -/
def tokensOf (observations : List Observation) (id : BlockId) (role : Role) : List Token :=
  (observations.filter fun o => o.block = id ∧ o.role = role).map Observation.token

theorem weightsOf_unit (observations : List Observation) (id : BlockId) (role : Role) :
    weightsOf id role (observations.map unit) =
      (tokensOf observations id role).map fun token => (token, (one : α)) := by
  rw [weightsOf, tokensOf, List.filter_map, List.map_map, List.map_map]
  rfl

theorem length_tokensOf (observations : List Observation) (id : BlockId) (role : Role) :
    (tokensOf observations id role).length = groupSize observations id role := by
  rw [tokensOf, List.length_map, groupSize, List.countP_eq_length_filter]

theorem count_tokensOf (observations : List Observation) (id : BlockId) (role : Role)
    (token : Token) :
    (tokensOf observations id role).count token = observations.count ⟨id, role, token⟩ := by
  rw [tokensOf, List.count, List.countP_map, List.countP_filter, List.count]
  refine List.countP_congr fun o _ => ?_
  obtain ⟨block, role', token'⟩ := o
  simp only [Function.comp_apply, Bool.and_eq_true, beq_iff_eq, decide_eq_true_eq,
    Observation.mk.injEq]
  exact ⟨fun h => ⟨h.2.1, h.2.2, h.1⟩, fun h => ⟨h.2.2, h.1, h.2.1⟩⟩

/-- **Weights of one give the profile of the tally.** -/
theorem profile_of_unit [OrderedScalar α] (h : CountsUpTo α limit)
    (hlimit : ∀ role, groupSize observations id role ≤ limit)
    {groups : PerRole (List (Token × α))}
    (hgroups : (weightGroups (observations.map unit)).get? id = some groups) :
    groups.map Distribution.ofWeights = (tallyOf observations id).map Distribution.ofCounts := by
  refine PerRole.ext_get fun role => ?_
  rw [PerRole.get_map, PerRole.get_map, get_weightGroups hgroups, weightsOf_unit]
  refine Distribution.ofWeights_ones h ?_ ?_ fun token => ?_
  · rw [length_tokensOf]
    exact hlimit role
  · rw [length_tokensOf, sum_tallyOf]
  · rw [count_tokensOf]
    exact get?_tallyOf observations ⟨id, role, token⟩

theorem ids_weightGroups_unit (observations : List Observation) :
    (weightGroups (observations.map (unit : Observation → Weighted α))).ids =
      (observations.map Observation.block).eraseDups := by
  rw [ids_weightGroups, List.map_map]
  rfl

/-- **Observations that count once each** have the same profiles as weighted ones. -/
theorem profilesOfWeights_eq [OrderedScalar α] (h : CountsUpTo α limit)
    (hlimit : ∀ id role, groupSize observations id role ≤ limit) :
    profilesOfWeights (observations.map unit) = (profilesOf observations : Profiles α) := by
  have hobserved {id : BlockId} {groups : PerRole (List (Token × α))}
      (hgroups : (weightGroups (observations.map unit)).get? id = some groups) :
      id ∈ observations.map Observation.block := by
    rw [← List.mem_eraseDups, ← ids_weightGroups_unit (α := α)]
    exact Roster.mem_ids_iff.mpr ⟨groups, hgroups⟩
  -- a block without any group is dropped, but an observed block has one
  have hkept {id : BlockId} {groups : PerRole (List (Token × α))}
      (hgroups : (weightGroups (observations.map unit)).get? id = some groups) :
      Profile.isEmpty (groups.map Distribution.ofWeights : Profile α) = false := by
    obtain ⟨o, ho, rfl⟩ := List.mem_map.mp (hobserved hgroups)
    rw [profile_of_unit h (hlimit _) hgroups]
    refine Profile.isEmpty_eq_false_iff.mpr ⟨o.role, ?_⟩
    rw [PerRole.get_map]
    exact isEmpty_frequencies.mpr ⟨o, ho, rfl, rfl⟩
  have hids : (profilesOfWeights (observations.map unit) : Profiles α).ids =
      (profilesOf observations : Profiles α).ids := by
    rw [ids_profilesOf, ← ids_weightGroups_unit (α := α)]
    refine Roster.ids_filterMap_of_forall fun id groups hgroups => ?_
    dsimp only
    rw [hkept hgroups]
    rfl
  refine Roster.ext_get? hids fun id hid => ?_
  rw [hids, ids_profilesOf, ← ids_weightGroups_unit (α := α)] at hid
  obtain ⟨groups, hgroups⟩ := Roster.mem_ids_iff.mp hid
  rw [profilesOfWeights, Roster.get?_filterMap, hgroups, Option.bind_some, get?_profilesOf,
    if_pos (hobserved hgroups), ← profile_of_unit h (hlimit id) hgroups]
  dsimp only
  rw [hkept hgroups]
  rfl

end

/-- **Counting and weighing agree.** Observations with the weight one each have, as weighted
observations, the profiles that they have when they are counted: in exact arithmetic, and in doubles
if no block has more than `2 ^ 53` observations in a role. -/
theorem profilesOfWeights_unit :
    (∀ (K : Type) [ExactField K] (observations : List Observation),
      profilesOfWeights (observations.map unit) = (profilesOf observations : Profiles K)) ∧
    ∀ observations : List Observation,
      (∀ id role, (observations.countP fun o => o.block = id ∧ o.role = role) ≤ 2 ^ 53) →
      profilesOfWeights (observations.map unit) = (profilesOf observations : Profiles Float) := by
  refine ⟨fun K _ observations => ?_, fun observations hlimit => ?_⟩
  · exact profilesOfWeights_eq (ExactField.countsUpTo K observations.length)
      fun _ _ => List.countP_le_length
  · exact profilesOfWeights_eq Double.countsUpTo hlimit

/-- Six observations are far from that limit. -/
theorem profilesOfWeights_interleaved :
    (∀ id role, (interleaved.countP fun o => o.block = id ∧ o.role = role) ≤ 2 ^ 53) ∧
      profilesOfWeights (interleaved.map unit) = (profilesOf interleaved : Profiles Float) := by
  have hlimit (id : BlockId) (role : Role) :
      (interleaved.countP fun o => o.block = id ∧ o.role = role) ≤ 2 ^ 53 := by
    refine List.countP_le_length.trans ?_
    decide
  exact ⟨hlimit, profilesOfWeights_unit.2 interleaved hlimit⟩

end Ingest

end BlockAffinity
