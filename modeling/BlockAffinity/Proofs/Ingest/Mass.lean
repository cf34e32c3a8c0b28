import BlockAffinity.Proofs.Distribution.Weights
import BlockAffinity.Proofs.Ingest.Accepted
import BlockAffinity.Proofs.Ingest.Groups
import BlockAffinity.Proofs.Profile

/-!
# BlockAffinity.Proofs.Ingest.Mass

**What becomes of accepted weights**, in doubles. A block and a role have a distribution exactly if one
of their rows has a positive weight and the total of the weights does not overflow; it lists the tokens
of these rows. Blocks without a distribution are dropped, and the others keep their order
(`Ingest.profilesOfWeights_of_accepted`).

So mass is lost in two ways only: a total may overflow, and a small weight may underflow when it is
divided by a large total. Where the exact totals leave room for both, nothing is lost.
-/

namespace BlockAffinity

/-- Selecting blocks keeps those that are selected, in order. -/
theorem Roster.ids_filterMap {β γ : Type} (f : BlockId → β → Option γ) (r : Roster β) :
    (r.filterMap f).ids = r.ids.filter fun id => ((r.filterMap f).get? id).isSome := by
  have hmem {id : BlockId} : id ∈ (r.filterMap f).ids ↔ ((r.filterMap f).get? id).isSome = true := by
    rw [mem_ids_iff, Option.isSome_iff_exists]
  have hkept : ((r.filterMap f).ids.filter fun id => ((r.filterMap f).get? id).isSome) =
      (r.filterMap f).ids := List.filter_eq_self.mpr fun _ => hmem.mp
  have hsublist := (ids_filterMap_sublist f r).filter fun id => ((r.filterMap f).get? id).isSome
  rw [hkept] at hsublist
  refine hsublist.eq_of_length_le ?_
  refine ((r.distinct.filter _).subperm fun id hid => ?_).length_le
  exact hmem.mpr (List.mem_filter.mp hid).2

open Scalar Double BlockAffinity.Distribution

namespace Distribution

theorem ofWeights_nil {α : Type} [Scalar α] : ofWeights ([] : List (Token × α)) = .empty := by
  refine TokenMap.ext_entries ?_
  rw [ofWeights, normalize]
  split <;> rfl

end Distribution

/-- A profile that is kept if it is not empty gives the same distributions as if it were kept in any
case. -/
theorem Profile.bind_get?_of_kept {α : Type} (p : Profile α) (role : Role) :
    ((if p.isEmpty then none else some p).bind fun profile : Profile α => profile.get? role) =
      p.get? role := by
  cases hempty : p.isEmpty with
  | false => rfl
  | true =>
      have hnone : (p.get role).isEmpty = true := by
        by_contra hkept
        rw [isEmpty_eq_false_iff.mpr ⟨role, Bool.eq_false_of_not_eq_true hkept⟩] at hempty
        exact Bool.false_ne_true hempty
      rw [get?, hnone]
      rfl

namespace Ingest

/-! ### What is stored -/

section

variable {α : Type}

/-- The distribution that is stored for a block and a role, if there is one. -/
def stored? (profiles : Profiles α) (id : BlockId) (role : Role) : Option (Distribution α) :=
  (profiles.get? id).bind fun profile => profile.get? role

theorem mem_weightsOf {id : BlockId} {role : Role} {rows : List (Weighted α)} {token : Token}
    {weight : α} : (token, weight) ∈ weightsOf id role rows ↔ ⟨⟨id, role, token⟩, weight⟩ ∈ rows := by
  simp only [weightsOf, List.mem_map, List.mem_filter, decide_eq_true_eq, Prod.mk.injEq]
  constructor
  · rintro ⟨⟨⟨_, _, _⟩, _⟩, ⟨hrow, rfl, rfl⟩, rfl, rfl⟩
    exact hrow
  · intro hrow
    exact ⟨_, ⟨hrow, rfl, rfl⟩, rfl, rfl⟩

/-- A block without weights has no rows. -/
theorem weightsOf_of_get?_eq_none {rows : List (Weighted α)} {id : BlockId}
    (h : (weightGroups rows).get? id = none) (role : Role) : weightsOf id role rows = [] := by
  refine weightsOf_eq_nil fun row hrow hmatch => ?_
  have hid : id ∈ (weightGroups rows).ids := by
    rw [ids_weightGroups, List.mem_eraseDups]
    exact List.mem_map.mpr ⟨row, hrow, hmatch.1⟩
  obtain ⟨groups, hget⟩ := Roster.mem_ids_iff.mp hid
  rw [h] at hget
  cases hget

variable [Scalar α] {rows : List (Weighted α)} {id : BlockId} {role : Role}

/-- **What is stored for a block and a role** is the distribution of the weights of their rows. -/
theorem stored?_profilesOfWeights :
    stored? (profilesOfWeights rows) id role =
      if (Distribution.ofWeights (weightsOf id role rows)).isEmpty then none
      else some (Distribution.ofWeights (weightsOf id role rows)) := by
  rw [stored?, profilesOfWeights, Roster.get?_filterMap]
  cases hgroups : (weightGroups rows).get? id with
  | none =>
      rw [weightsOf_of_get?_eq_none hgroups, Distribution.ofWeights_nil]
      rfl
  | some groups =>
      rw [Option.bind_some, Profile.bind_get?_of_kept, Profile.get?, PerRole.get_map,
        get_weightGroups hgroups]

theorem stored?_eq_some_iff {d : Distribution α} : stored? (profilesOfWeights rows) id role = some d ↔
    Distribution.ofWeights (weightsOf id role rows) = d ∧ d.isEmpty = false := by
  rw [stored?_profilesOfWeights, Option.ite_none_left_eq_some, Option.some.injEq, Bool.not_eq_true]
  constructor
  · rintro ⟨hkept, rfl⟩
    exact ⟨rfl, hkept⟩
  · rintro ⟨rfl, hkept⟩
    exact ⟨hkept, rfl⟩

/-- A block is kept if something is stored for one of its roles. -/
theorem isSome_get?_profilesOfWeights :
    ((profilesOfWeights rows).get? id).isSome = true ↔
      ∃ role, (stored? (profilesOfWeights rows) id role).isSome = true := by
  constructor
  · intro hsome
    obtain ⟨profile, hprofile⟩ := Option.isSome_iff_exists.mp hsome
    have hkept : profile.isEmpty = false := by
      rw [profilesOfWeights, Roster.get?_filterMap, Option.bind_eq_some_iff] at hprofile
      obtain ⟨groups, -, hgroups⟩ := hprofile
      obtain ⟨hkept, hprofile⟩ := Option.ite_none_left_eq_some.mp hgroups
      rw [← Option.some.inj hprofile]
      exact Bool.eq_false_of_not_eq_true hkept
    obtain ⟨role, hrole⟩ := Profile.isEmpty_eq_false_iff.mp hkept
    refine ⟨role, ?_⟩
    rw [stored?, hprofile, Option.bind_some, Profile.get?_eq_some_iff.mpr ⟨rfl, hrole⟩]
    rfl
  · rintro ⟨role, hsome⟩
    obtain ⟨d, hd⟩ := Option.isSome_iff_exists.mp hsome
    obtain ⟨profile, hprofile, -⟩ := Option.bind_eq_some_iff.mp hd
    rw [hprofile]
    rfl

/-- **Blocks are kept in the order of first appearance.** -/
theorem ids_profilesOfWeights (rows : List (Weighted α)) :
    (profilesOfWeights rows).ids = ((rows.map fun row => row.observation.block).eraseDups).filter
      fun id => Role.all.any fun role => (stored? (profilesOfWeights rows) id role).isSome := by
  have hids := Roster.ids_filterMap (fun (_ : BlockId) (groups : PerRole (List (Token × α))) =>
    let profile : Profile α := groups.map Distribution.ofWeights
    if profile.isEmpty then none else some profile) (weightGroups rows)
  refine hids.trans ?_
  rw [ids_weightGroups]
  refine List.filter_congr fun id _ => ?_
  rw [Bool.eq_iff_iff, List.any_eq_true]
  refine isSome_get?_profilesOfWeights.trans ⟨fun ⟨role, h⟩ => ⟨role, Role.mem_all role, h⟩, ?_⟩
  rintro ⟨role, -, h⟩
  exact ⟨role, h⟩

end

/-! ### Weights in doubles -/

section

variable {rows : List (Weighted Float)} {id : BlockId} {role : Role}

/-- Weights as they are accepted: finite, and not below zero. -/
def AreWeights (rows : List (Weighted Float)) : Prop :=
  ∀ row ∈ rows, isFinite row.weight = true ∧ lt row.weight zero = false

/-- **The rows of a table that are accepted** have such weights. -/
theorem areWeights_of_weightedRows {table : Csv.Table} {policy : Policy}
    {accepted : Accepted (Weighted Float)} (h : weightedRows table policy = .ok accepted) :
    AreWeights accepted.rows := by
  intro row hrow
  obtain ⟨column, -, h⟩ := bind_eq_ok_iff.mp h
  obtain ⟨rows, -, h⟩ := bind_eq_ok_iff.mp h
  obtain ⟨raw, -, hcheck⟩ := exists_of_mem_accepted h hrow
  obtain ⟨o, -, hcheck⟩ := bind_eq_ok_iff.mp hcheck
  obtain ⟨weight, hweight, hcheck⟩ := bind_eq_ok_iff.mp hcheck
  obtain rfl := Except.ok.inj hcheck
  unfold checkWeight at hweight
  dsimp only at hweight
  split at hweight
  · cases hweight
  · split at hweight
    · cases hweight
    · rename_i hgood
      obtain rfl := Except.ok.inj hweight
      rwa [Bool.or_eq_true, not_or, Bool.not_eq_true, Bool.not_eq_true, Bool.not_eq_false'] at hgood

theorem AreWeights.inRange (h : AreWeights rows) {entry : Token × Float}
    (hentry : entry ∈ weightsOf id role rows) : InRange (toRat entry.2) entry.2 := by
  obtain ⟨hfinite, hlt⟩ := h _ (mem_weightsOf.mp hentry)
  exact inRange_of_lt_zero hfinite hlt

theorem AreWeights.isDistance (h : AreWeights rows) :
    ∀ entry ∈ weightsOf id role rows, IsDistance entry.2 :=
  fun _ hentry => (h.inRange hentry).isDistance

/-- A token has a positive weight in some row of a block and a role. -/
def HasMass (id : BlockId) (role : Role) (token : Token) (rows : List (Weighted Float)) : Prop :=
  ∃ row ∈ rows, row.observation = ⟨id, role, token⟩ ∧ lt zero row.weight = true

theorem hasMass_iff {token : Token} : HasMass id role token rows ↔
    ∃ weight, (token, weight) ∈ weightsOf id role rows ∧ lt zero weight = true := by
  constructor
  · rintro ⟨⟨_, weight⟩, hrow, rfl, hpositive⟩
    exact ⟨weight, mem_weightsOf.mpr hrow, hpositive⟩
  · rintro ⟨weight, hentry, hpositive⟩
    exact ⟨_, mem_weightsOf.mp hentry, rfl, hpositive⟩

/-- Weights that are far from both ends of the range: what they add up to is below `2 ^ 1022`, and each
of them that is positive is more than this times the smallest double. -/
structure IsModerate (weights : List (Token × Float)) : Prop where
  length_le : weights.length ≤ 2 ^ 49
  total_lt : exactTotal weights < 2 ^ 1022
  large : ∀ entry ∈ weights, lt zero entry.2 = true → smallest * exactTotal weights < toRat entry.2

theorem IsModerate.inRange (h : AreWeights rows) (hmoderate : IsModerate (weightsOf id role rows)) :
    ∀ entry ∈ weightsOf id role rows, InRange (2 ^ 1023) entry.2 := by
  intro entry hentry
  have hlimit : ∀ entry ∈ weightsOf id role rows, InRange largest entry.2 := fun other hother =>
    (h.inRange hother).weaken ((le_abs_self _).trans (abs_toRat_le_largest _))
  refine (h.inRange hentry).weaken ((toRat_le_exactTotal hlimit hentry).trans ?_)
  exact hmoderate.total_lt.le.trans (pow_le_pow_right₀ one_le_two (by decide))

/-- **Something is stored** exactly if a weight is positive and the total does not overflow. -/
theorem isSome_stored?_iff (h : AreWeights rows) :
    (stored? (profilesOfWeights rows) id role).isSome = true ↔
      (∃ token, HasMass id role token rows) ∧ isFinite (totalWeight (weightsOf id role rows)) = true := by
  have hsome : (stored? (profilesOfWeights rows) id role).isSome = true ↔
      (ofWeights (weightsOf id role rows)).isEmpty = false := by
    simp only [Option.isSome_iff_exists, stored?_eq_some_iff]
    exact ⟨fun ⟨_, heq, hkept⟩ => heq ▸ hkept, fun hkept => ⟨_, rfl, hkept⟩⟩
  simp only [hsome, isEmpty_ofWeights_iff h.isDistance, hasMass_iff, Prod.exists]

/-- **What becomes of accepted weights.** A block and a role have a distribution exactly if one of their
rows has a positive weight and the total is finite. It lists exactly the tokens with a positive weight,
with numbers from zero to one, and the blocks that have a distribution come in the order of their first
rows. Where the weights are moderate the total is finite and none of these numbers is zero, so nothing is
lost. -/
theorem profilesOfWeights_of_accepted (rows : List (Weighted Float)) (hrows : AreWeights rows) :
    (∀ id role, (stored? (profilesOfWeights rows) id role).isSome = true ↔
      (∃ token, HasMass id role token rows) ∧
        isFinite (totalWeight (weightsOf id role rows)) = true) ∧
    (∀ id role d, stored? (profilesOfWeights rows) id role = some d →
      (∀ token, token ∈ d.tokens ↔ HasMass id role token rows) ∧ ∀ p ∈ d.values, InRange 1 p) ∧
    (profilesOfWeights rows).ids = ((rows.map fun row => row.observation.block).eraseDups).filter
      (fun id => Role.all.any fun role => (stored? (profilesOfWeights rows) id role).isSome) ∧
    ∀ id role, IsModerate (weightsOf id role rows) →
      ((stored? (profilesOfWeights rows) id role).isSome = true ↔
        ∃ token, HasMass id role token rows) ∧
      ∀ d, stored? (profilesOfWeights rows) id role = some d → ∀ p ∈ d.values, lt zero p = true := by
  refine ⟨fun id role => isSome_stored?_iff hrows, fun id role d hd => ?_,
    ids_profilesOfWeights rows, fun id role hmoderate => ⟨?_, fun d hd p hp => ?_⟩⟩
  · obtain ⟨rfl, hkept⟩ := stored?_eq_some_iff.mp hd
    exact ⟨fun token => (mem_tokens_ofWeights hkept).trans hasMass_iff.symm,
      isBounded_ofWeights hrows.isDistance⟩
  · have hinRange := IsModerate.inRange hrows hmoderate
    obtain ⟨hfinite, -⟩ := isFinite_total hinRange hmoderate.total_lt hmoderate.length_le
    rw [isSome_stored?_iff hrows, and_iff_left hfinite]
  · obtain ⟨rfl, hkept⟩ := stored?_eq_some_iff.mp hd
    obtain ⟨token, hget⟩ := TokenMap.mem_values_iff.mp hp
    obtain ⟨weight, hweight, hpositive⟩ := (mem_tokens_ofWeights hkept).mp
      (TokenMap.mem_tokens_iff.mpr ⟨p, hget⟩)
    have hinRange := IsModerate.inRange hrows hmoderate
    have hlarge : smallest * exactTotal (weightsOf id role rows) < toRat weight :=
      hmoderate.large (token, weight) hweight hpositive
    have hpos :=
      probability_pos hinRange hmoderate.total_lt hmoderate.length_le hweight hlarge hget
    exact (lt_zero_iff_of_isFinite (isBounded_ofWeights hrows.isDistance p hp).finite).mpr hpos

/-- Rows of two blocks; one of them has no positive weight. -/
def unevenRows : List (Weighted Float) :=
  [⟨⟨⟨"a"⟩, .instruction, "mov"⟩, 3⟩, ⟨⟨⟨"b"⟩, .instruction, "nop"⟩, 0⟩,
    ⟨⟨⟨"a"⟩, .instruction, "add"⟩, 1⟩]

/-- Both tokens of the first block are stored, with positive numbers; the second block is dropped. -/
theorem profilesOfWeights_of_unevenRows :
    AreWeights unevenRows ∧ (profilesOfWeights unevenRows).ids = [⟨"a"⟩] ∧
    ∃ d, stored? (profilesOfWeights unevenRows) ⟨"a"⟩ .instruction = some d ∧
      "mov" ∈ d.tokens ∧ "add" ∈ d.tokens ∧ ∀ p ∈ d.values, lt zero p = true := by
  have hrows : AreWeights unevenRows := by
    unfold AreWeights
    decide +kernel
  have hthree : toRat (3 : Float) = 3 := by
    rw [toRat_of_unpacked (m := 3 * 2 ^ 51) (e := -51) (h := by decide) (by rfl)]
    norm_num
  have hone : toRat (1 : Float) = 1 := by
    rw [toRat_of_unpacked (m := 2 ^ 52) (e := -52) (h := by decide) (by rfl)]
    norm_num
  have hweights : weightsOf ⟨"a"⟩ .instruction unevenRows = [("mov", 3), ("add", 1)] := by rfl
  have htotal : exactTotal [("mov", 3), ("add", 1)] = 4 := by
    rw [exactTotal, List.map_cons, List.map_cons, List.map_nil, List.sum_cons, List.sum_cons,
      List.sum_nil, hthree, hone]
    norm_num
  have hmoderate : IsModerate (weightsOf ⟨"a"⟩ .instruction unevenRows) := by
    rw [hweights]
    refine ⟨by decide, ?_, ?_⟩
    · rw [htotal]
      exact lt_of_lt_of_le (by norm_num) (pow_le_pow_right₀ one_le_two (show 3 ≤ 1022 by decide))
    · have hsmall : smallest * 4 < 1 := by
        have hle : smallest ≤ 2 ^ (-3 : ℤ) := zpow_le_zpow_right₀ one_le_two (by decide)
        norm_num at hle
        linarith
      intro entry hentry _
      rw [htotal]
      rcases List.mem_pair.mp hentry with rfl | rfl
      · rw [hthree]
        linarith
      · rw [hone]
        linarith
  obtain ⟨-, hlisted, hids, hkept⟩ := profilesOfWeights_of_accepted unevenRows hrows
  obtain ⟨hstored, hpositive⟩ := hkept ⟨"a"⟩ .instruction hmoderate
  have hmov : HasMass ⟨"a"⟩ .instruction "mov" unevenRows :=
    ⟨_, List.mem_cons_self, rfl, by decide +kernel⟩
  have hadd : HasMass ⟨"a"⟩ .instruction "add" unevenRows :=
    ⟨⟨_, 1⟩, by simp [unevenRows], rfl, by decide +kernel⟩
  obtain ⟨d, hd⟩ := Option.isSome_iff_exists.mp (hstored.mpr ⟨"mov", hmov⟩)
  obtain ⟨htokens, -⟩ := hlisted _ _ d hd
  refine ⟨hrows, ?_, d, hd, (htokens _).mpr hmov, (htokens _).mpr hadd, hpositive d hd⟩
  rw [hids]
  decide +kernel

/-- Two weights that add up to more than the largest double, and a weight in another block. -/
def overflowingRows : List (Weighted Float) :=
  [⟨⟨⟨"a"⟩, .instruction, "mov"⟩, 1e308⟩, ⟨⟨⟨"a"⟩, .instruction, "add"⟩, 1e308⟩,
    ⟨⟨⟨"b"⟩, .instruction, "mov"⟩, 1⟩]

/-- The smallest double beside a weight that is more than one. -/
def underflowingRows : List (Weighted Float) :=
  [⟨⟨⟨"a"⟩, .instruction, "mov"⟩, 2⟩, ⟨⟨⟨"a"⟩, .instruction, "add"⟩, 5e-324⟩]

/-- **Mass is lost at both ends of the range.** A block whose weights are all positive is dropped when
they add up to infinity, and a token with a positive weight is stored with zero when the quotient
underflows. -/
theorem mass_lost :
    (AreWeights overflowingRows ∧ HasMass ⟨"a"⟩ .instruction "mov" overflowingRows ∧
      stored? (profilesOfWeights overflowingRows) ⟨"a"⟩ .instruction = none ∧
      (profilesOfWeights overflowingRows).ids = [⟨"b"⟩]) ∧
    AreWeights underflowingRows ∧ HasMass ⟨"a"⟩ .instruction "add" underflowingRows ∧
      ∃ d, stored? (profilesOfWeights underflowingRows) ⟨"a"⟩ .instruction = some d ∧
        ∃ p, d.get? "add" = some p ∧ eq p zero = true := by
  refine ⟨⟨?_, ⟨⟨_, 1e308⟩, by simp [overflowingRows], rfl, by decide +kernel⟩, ?_, by decide +kernel⟩,
    ?_, ⟨⟨_, 5e-324⟩, by simp [underflowingRows], rfl, by decide +kernel⟩, ?_⟩
  · unfold AreWeights
    decide +kernel
  · refine Option.isNone_iff_eq_none.mp ?_
    decide +kernel
  · unfold AreWeights
    decide +kernel
  · have hany : (stored? (profilesOfWeights underflowingRows) ⟨"a"⟩ .instruction).any
        (fun d => (d.get? "add").any (eq · zero)) = true := by decide +kernel
    obtain ⟨d, hd, hget⟩ := (Option.any_eq_true _ _).mp hany
    obtain ⟨p, hp, hzero⟩ := (Option.any_eq_true _ _).mp hget
    exact ⟨d, hd, p, hp, hzero⟩

end

end Ingest

end BlockAffinity
