import BlockAffinity.Proofs.Ingest.Groups
import BlockAffinity.Proofs.Lists
import BlockAffinity.Proofs.Profile

/-!
# BlockAffinity.Proofs.Ingest.Listing

**Profiles as weighted rows and back.** A listing has one row for each block, role and token
(`mem_listing_iff`, `nodup_listing`), in this order. Gathering the rows of a listing gives the
entries of each distribution again, block by block (`weightGroups_listing`), so the profiles of a
listing are the profiles that were listed, but for a division by the total
(`profilesOfWeights_listing`).
-/

namespace BlockAffinity

/-! ### Runs of ids -/

/-- Runs of one id each, of different ids, leave one of each. -/
theorem eraseDups_flatMap {β : Type} {xs : List β} {key : β → BlockId} {run : β → List BlockId}
    (hnodup : (xs.map key).Nodup) (hrun : ∀ x ∈ xs, run x ≠ [] ∧ ∀ id ∈ run x, id = key x) :
    (xs.flatMap run).eraseDups = xs.map key := by
  induction xs with
  | nil => rfl
  | cons x xs ih =>
      rw [List.map_cons, List.nodup_cons] at hnodup
      rw [List.forall_mem_cons] at hrun
      obtain ⟨⟨hsome, hsame⟩, hrun⟩ := hrun
      have hone : (run x).eraseDups = [key x] := by
        rw [List.eq_replicate_of_mem hsame]
        cases hlength : (run x).length with
        | zero => exact absurd (List.length_eq_zero_iff.mp hlength) hsome
        | succ n => simp [List.replicate_succ, List.eraseDups_cons]
      have hothers : (xs.flatMap run).removeAll (run x) = xs.flatMap run := by
        rw [List.removeAll, List.filter_eq_self]
        intro id hid
        obtain ⟨y, hy, hid⟩ := List.mem_flatMap.mp hid
        rw [Bool.not_eq_true', ← Bool.not_eq_true, List.elem_iff]
        intro hid'
        rw [(hrun y hy).2 id hid] at hid'
        exact hnodup.1 (hsame _ hid' ▸ List.mem_map_of_mem hy)
      rw [List.flatMap_cons, List.eraseDups_append, hone, hothers, ih hnodup.2 hrun]
      rfl

namespace Ingest

variable {α : Type}

/-! ### The rows of profiles -/

/-- The rows of one role of a block. -/
def listingOfRole (id : BlockId) (role : Role) (d : Distribution α) : List (Weighted α) :=
  d.entries.map fun entry => ⟨⟨id, role, entry.1⟩, entry.2⟩

/-- The rows of a block. -/
def listingOfBlock (id : BlockId) (profile : Profile α) : List (Weighted α) :=
  Role.all.flatMap fun role => listingOfRole id role (profile.get role)

/-- Every probability of the profiles as a row of its own. -/
def listing (profiles : Profiles α) : List (Weighted α) :=
  profiles.entries.flatMap fun entry => listingOfBlock entry.1 entry.2

theorem mem_listingOfRole_iff {id : BlockId} {role : Role} {d : Distribution α} {row : Weighted α} :
    row ∈ listingOfRole id role d ↔ row.observation.block = id ∧ row.observation.role = role ∧
      d.get? row.observation.token = some row.weight := by
  obtain ⟨⟨id', role', token⟩, weight⟩ := row
  simp only [listingOfRole, List.mem_map, Prod.exists, Weighted.mk.injEq, Observation.mk.injEq,
    ← TokenMap.mem_entries_iff]
  constructor
  · rintro ⟨token, weight, hentry, ⟨rfl, rfl, rfl⟩, rfl⟩
    exact ⟨rfl, rfl, hentry⟩
  · rintro ⟨rfl, rfl, hentry⟩
    exact ⟨token, weight, hentry, ⟨rfl, rfl, rfl⟩, rfl⟩

theorem mem_listingOfBlock_iff {id : BlockId} {profile : Profile α} {row : Weighted α} :
    row ∈ listingOfBlock id profile ↔ row.observation.block = id ∧
      (profile.get row.observation.role).get? row.observation.token = some row.weight := by
  simp only [listingOfBlock, List.mem_flatMap, mem_listingOfRole_iff]
  constructor
  · rintro ⟨role, -, hid, rfl, hweight⟩
    exact ⟨hid, hweight⟩
  · rintro ⟨hid, hweight⟩
    exact ⟨_, Role.mem_all _, hid, rfl, hweight⟩

/-- **The rows of a listing** are the probabilities of the profiles. -/
theorem mem_listing_iff {profiles : Profiles α} {row : Weighted α} :
    row ∈ listing profiles ↔ ∃ profile, profiles.get? row.observation.block = some profile ∧
      (profile.get row.observation.role).get? row.observation.token = some row.weight := by
  simp only [listing, List.mem_flatMap, Prod.exists, mem_listingOfBlock_iff, Roster.mem_entries_iff]
  constructor
  · rintro ⟨_, profile, hprofile, rfl, hweight⟩
    exact ⟨profile, hprofile, hweight⟩
  · rintro ⟨profile, hprofile, hweight⟩
    exact ⟨_, profile, hprofile, rfl, hweight⟩

/-- No two rows of a listing are about one block, role and token. -/
theorem nodup_listing (profiles : Profiles α) :
    ((listing profiles).map Weighted.observation).Nodup := by
  have hrole (id : BlockId) (role : Role) (d : Distribution α) :
      ((listingOfRole id role d).map Weighted.observation).Nodup := by
    have htokens : (listingOfRole id role d).map Weighted.observation =
        d.tokens.map fun token => ⟨id, role, token⟩ := by
      rw [listingOfRole, List.map_map, TokenMap.tokens, List.map_map]
      rfl
    rw [htokens]
    exact d.nodup_tokens.map fun _ _ heq => (Observation.mk.inj heq).2.2
  have hblock (block : BlockId) (profile : Profile α) :
      ((listingOfBlock block profile).map Weighted.observation).Nodup := by
    rw [listingOfBlock, List.map_flatMap]
    refine nodup_flatMap_of_key id Observation.role (by decide)
      (fun role _ => hrole block role _) fun role _ o ho => ?_
    obtain ⟨row, hrow, rfl⟩ := List.mem_map.mp ho
    exact (mem_listingOfRole_iff.mp hrow).2.1
  rw [listing, List.map_flatMap]
  refine nodup_flatMap_of_key Prod.fst Observation.block profiles.distinct
    (fun entry _ => hblock entry.1 entry.2) fun entry _ o ho => ?_
  obtain ⟨row, hrow, rfl⟩ := List.mem_map.mp ho
  exact (mem_listingOfBlock_iff.mp hrow).1

/-! ### Gathered again -/

theorem weightsOf_listingOfRole (id : BlockId) (role : Role) (d : Distribution α) :
    weightsOf id role (listingOfRole id role d) = d.entries := by
  rw [weightsOf, listingOfRole, List.filter_map, List.map_map]
  simp [Function.comp_def]

/-- The weights of a block and a role in a listing are what was listed for them. -/
theorem weightsOf_listing {profiles : Profiles α} {id : BlockId} {profile : Profile α}
    (h : profiles.get? id = some profile) (role : Role) :
    weightsOf id role (listing profiles) = (profile.get role).entries := by
  have hblock : weightsOf id role (listing profiles) = weightsOf id role (listingOfBlock id profile) := by
    rw [listing, weightsOf_flatMap]
    refine flatMap_eq_of_unique (x := (id, profile)) (List.Nodup.of_map _ profiles.distinct)
      (Roster.mem_entries_iff.mpr h) fun entry hentry hne => ?_
    refine weightsOf_eq_nil fun row hrow hmatch => hne ?_
    have hid : entry.1 = id := (mem_listingOfBlock_iff.mp hrow).1.symm.trans hmatch.1
    have hfound := Roster.mem_entries_iff.mp hentry
    rw [hid, h] at hfound
    exact Prod.ext hid (Option.some.inj hfound).symm
  rw [hblock, listingOfBlock, weightsOf_flatMap, ← weightsOf_listingOfRole id role (profile.get role)]
  refine flatMap_eq_of_unique (x := role) (by decide) (Role.mem_all role) fun other _ hne => ?_
  refine weightsOf_eq_nil fun row hrow hmatch => hne ?_
  exact (mem_listingOfRole_iff.mp hrow).2.1.symm.trans hmatch.2

theorem listingOfBlock_ne_nil {id : BlockId} {profile : Profile α} (h : profile.isEmpty = false) :
    listingOfBlock id profile ≠ [] := by
  obtain ⟨role, hrole⟩ := Profile.isEmpty_eq_false_iff.mp h
  obtain ⟨entry, hentry⟩ := List.isEmpty_eq_false_iff_exists_mem.mp hrole
  have hrow : ⟨⟨id, role, entry.1⟩, entry.2⟩ ∈ listingOfBlock id profile :=
    mem_listingOfBlock_iff.mpr ⟨rfl, TokenMap.mem_entries_iff.mp hentry⟩
  exact List.ne_nil_of_mem hrow

/-- **A listing is gathered** into what was listed. -/
theorem weightGroups_listing {profiles : Profiles α}
    (h : ∀ profile ∈ profiles.values, Profile.isEmpty profile = false) :
    weightGroups (listing profiles) = profiles.map fun profile => profile.map TokenMap.entries := by
  have hids : (weightGroups (listing profiles)).ids = profiles.ids := by
    rw [ids_weightGroups, listing, List.map_flatMap]
    refine eraseDups_flatMap profiles.distinct fun entry hentry => ⟨?_, fun id hid => ?_⟩
    · rw [ne_eq, List.map_eq_nil_iff]
      exact listingOfBlock_ne_nil (h entry.2 (List.mem_map_of_mem hentry))
    · obtain ⟨row, hrow, rfl⟩ := List.mem_map.mp hid
      exact (mem_listingOfBlock_iff.mp hrow).1
  refine Roster.ext_get? ?_ fun id hid => ?_
  · rw [hids]
    exact (Roster.ids_filterMap_of_forall fun _ _ _ => rfl).symm
  · obtain ⟨groups, hgroups⟩ := Roster.mem_ids_iff.mp hid
    rw [hids] at hid
    obtain ⟨profile, hprofile⟩ := Roster.mem_ids_iff.mp hid
    rw [Roster.map, Roster.get?_filterMap, hprofile, hgroups, Option.bind_some, Option.some.injEq]
    refine PerRole.ext_get fun role => ?_
    rw [get_weightGroups hgroups, weightsOf_listing hprofile, PerRole.get_map]

/-- **The profiles of a listing** are the profiles that were listed, each distribution divided by its
total. -/
theorem profilesOfWeights_listing [Scalar α] {profiles : Profiles α}
    (h : ∀ profile ∈ profiles.values, Profile.isEmpty profile = false) :
    profilesOfWeights (listing profiles) = profiles.filterMap fun _ profile =>
      let divided : Profile α := profile.map fun d => Distribution.ofWeights d.entries
      if divided.isEmpty then none else some divided := by
  rw [profilesOfWeights, weightGroups_listing h]
  refine Roster.ext_entries ?_
  show ((profiles.entries.filterMap _).filterMap _) = profiles.entries.filterMap _
  rw [List.filterMap_filterMap]
  rfl

end Ingest

end BlockAffinity
