import Mathlib
import BlockAffinity.Proofs.Analysis.Stages
import BlockAffinity.Proofs.Linkage.Twins
import BlockAffinity.Proofs.Overlap
import BlockAffinity.Proofs.ScoreMatrix.Similarities

/-!
# BlockAffinity.Proofs.Analysis.EqualProfiles

**Blocks with equal profiles**, scored by their overlap in exact arithmetic. The distance of two blocks
is how far their overlap is below the largest one, and two equal blocks overlap in as many roles as they
use. So they are at distance zero only if no two blocks overlap by more, and it depends on the threshold
whether they have the same label (`Analysis.labels_of_equal_profiles`).

Equal blocks are twins (`ScoreMatrix.twins_of_equal_profiles`): nothing overlaps more with a block than
one that is equal to it. What overlaps as much has at least its probability for each token
(`Overlap.ofBlocks_eq_self_iff`), and so two such blocks overlap as much with each other.
-/

namespace BlockAffinity

open Scalar ExactField

variable {K : Type} [ExactField K]

/-! ### Overlaps with one block -/

namespace Overlap

variable {p q r : Distribution K}

/-- Two distributions that are both above a third one for every token overlap in all of it. -/
theorem total_le_ofDistributions (hq : ∀ x ∈ q.values, 0 ≤ x) (hr : ∀ x ∈ r.values, 0 ≤ x)
    (hpq : ∀ token, p.probability token ≤ q.probability token)
    (hpr : ∀ token, p.probability token ≤ r.probability token) : p.total ≤ ofDistributions q r := by
  have hleft : p.tokens.toFinset ⊆ p.tokens.toFinset ∪ (q.tokens.toFinset ∪ r.tokens.toFinset) :=
    Finset.subset_union_left
  have hright : q.tokens.toFinset ∪ r.tokens.toFinset ⊆
      p.tokens.toFinset ∪ (q.tokens.toFinset ∪ r.tokens.toFinset) := Finset.subset_union_right
  rw [Distribution.total_eq_sum hleft, ofDistributions_eq_sum hq hr
    (Finset.subset_union_left.trans hright) (Finset.subset_union_right.trans hright)]
  exact Finset.sum_le_sum fun token _ => le_min (hpq token) (hpr token)

/-- All distributions of a block are normalised. -/
def IsNormalizedBlock (profile : Profile K) : Prop := ∀ role, IsNormalized (profile.get role)

variable {block left right : Profile K}

/-- **A block overlaps most** with those that have at least its probability for each token. -/
theorem ofBlocks_eq_self_iff (hblock : IsNormalizedBlock block) (hleft : IsNormalizedBlock left) :
    ofBlocks block left = ofBlocks block block ↔
      ∀ role token, (block.get role).probability token ≤ (left.get role).probability token := by
  have hiff (role : Role) : ofDistributions (block.get role) (left.get role) =
        ofDistributions (block.get role) (block.get role) ↔
      ∀ token, (block.get role).probability token ≤ (left.get role).probability token := by
    rw [ofDistributions_self (hblock role)]
    exact ofDistributions_eq_total_iff (hblock role).nonneg (hleft role).nonneg
  have hle (role : Role) : ofDistributions (block.get role) (left.get role) ≤
      ofDistributions (block.get role) (block.get role) := by
    rw [ofDistributions_self (hblock role)]
    exact ofDistributions_le_total (hblock role).nonneg (hleft role).nonneg
  rw [ofBlocks_eq_sum_roles hblock hleft, ofBlocks_eq_sum_roles hblock hblock]
  constructor
  · intro hsum role
    rw [← hiff]
    by_contra hne
    exact (List.sum_lt_sum _ _ (fun role _ => hle role)
      ⟨role, Role.mem_all role, lt_of_le_of_ne (hle role) hne⟩).ne hsum
  · intro h
    rw [List.map_congr_left fun role _ => (hiff role).mpr (h role)]

/-- Two blocks that each overlap in all of a third one overlap as much with each other. -/
theorem ofBlocks_self_le (hblock : IsNormalizedBlock block) (hleft : IsNormalizedBlock left)
    (hright : IsNormalizedBlock right) (hl : ofBlocks block left = ofBlocks block block)
    (hr : ofBlocks block right = ofBlocks block block) :
    ofBlocks block block ≤ ofBlocks left right := by
  rw [ofBlocks_eq_self_iff hblock hleft] at hl
  rw [ofBlocks_eq_self_iff hblock hright] at hr
  rw [ofBlocks_eq_sum_roles hblock hblock, ofBlocks_eq_sum_roles hleft hright]
  refine List.sum_le_sum fun role _ => ?_
  rw [ofDistributions_self (hblock role)]
  exact total_le_ofDistributions (hleft role).nonneg (hright role).nonneg (hl role) (hr role)

theorem ofBlocks_comm (hleft : IsNormalizedBlock left) (hright : IsNormalizedBlock right) :
    ofBlocks left right = ofBlocks right left :=
  (ExactField.same_iff.mp
    (same_ofBlocks_comm (fun role x hx => decide_eq_true ((hleft role).nonneg x hx))
      fun role x hx => decide_eq_true ((hright role).nonneg x hx))).2

end Overlap

/-! ### Places of blocks -/

section places

variable {β : Type} {r : Roster β} {i j : Nat} {id : BlockId} {value : β}

theorem Roster.exists_place (h : r.get? id = some value) :
    ∃ i : Nat, r.ids[i]? = some id ∧ r.values[i]? = some value := by
  obtain ⟨i, hi⟩ := List.mem_iff_getElem?.mp (mem_entries_iff.mpr h)
  exact ⟨i, by rw [ids, List.getElem?_map, hi, Option.map_some],
    by rw [values, List.getElem?_map, hi, Option.map_some]⟩

theorem Roster.exists_at_place (h : r.values[i]? = some value) :
    ∃ id, r.get? id = some value ∧ r.ids[i]? = some id := by
  rw [values, List.getElem?_map, Option.map_eq_some_iff] at h
  obtain ⟨⟨id, _⟩, hentry, rfl⟩ := h
  exact ⟨id, mem_entries_iff.mp (List.mem_of_getElem? hentry),
    by rw [ids, List.getElem?_map, hentry, Option.map_some]⟩

theorem Roster.place_inj (hi : r.ids[i]? = some id) (hj : r.ids[j]? = some id) : i = j :=
  (List.getElem?_inj (List.getElem?_eq_some_iff.mp hi).1 r.distinct).mp (hi.trans hj.symm)

end places

/-! ### Equal blocks as twins -/

namespace ScoreMatrix

open Overlap

/-- The overlaps of the blocks, all of which are acceptable in exact arithmetic. -/
def exactOverlaps (profiles : Profiles K) : ScoreMatrix K :=
  ofPairs profiles.ids (.ofFn profiles.ids.length (betweenProfiles ofBlocks profiles.values))

theorem overlaps_eq_ok (profiles : Profiles K) : overlaps profiles = .ok (exactOverlaps profiles) :=
  ofScores_eq_ok_iff.mpr ⟨fun _ _ _ _ => rfl, rfl⟩

theorem size_exactOverlaps (profiles : Profiles K) :
    (exactOverlaps profiles).size = profiles.values.length := by
  simp [exactOverlaps, Roster.ids, Roster.values]

variable {profiles : Profiles K} {i j : Nat} {left right profile : Profile K}

theorem lt_size_exactOverlaps (hi : profiles.values[i]? = some left) :
    i < (exactOverlaps profiles).size := by
  rw [size_exactOverlaps]
  exact (List.getElem?_eq_some_iff.mp hi).1

theorem cell_exactOverlaps (hij : i < j) (hi : profiles.values[i]? = some left)
    (hj : profiles.values[j]? = some right) :
    (exactOverlaps profiles).cell i j = ofBlocks left right := by
  have hlt : j < profiles.ids.length := by
    have := (List.getElem?_eq_some_iff.mp hj).1
    simpa [Roster.ids, Roster.values] using this
  rw [exactOverlaps, cell_ofPairs (hij.trans hlt) hlt, if_neg hij.ne, PairTable.get_ofFn _ hij hlt,
    betweenProfiles, hi, hj]

variable (hprofiles : ∀ profile ∈ profiles.values, IsNormalizedBlock profile)
include hprofiles

/-- **The distance of two blocks** is how far their overlap is below the largest one. -/
theorem pairDistance_toDistances (hij : i ≠ j) (hi : profiles.values[i]? = some left)
    (hj : profiles.values[j]? = some right) :
    (exactOverlaps profiles).toDistances.pairDistance i j =
      (exactOverlaps profiles).maxOffDiagonal - ofBlocks left right := by
  have hordered {k l : Nat} {p q : Profile K} (hkl : k < l) (hk : profiles.values[k]? = some p)
      (hl : profiles.values[l]? = some q) : (exactOverlaps profiles).toDistances.pairDistance k l =
        (exactOverlaps profiles).maxOffDiagonal - ofBlocks p q := by
    rw [pairDistance_of_lt _ hkl, cell_toDistances hkl (lt_size_exactOverlaps hl), cell_exactOverlaps hkl hk hl]
  rcases Nat.lt_or_gt_of_ne hij with hlow | hhigh
  · exact hordered hlow hi hj
  · rw [pairDistance_comm, hordered hhigh hj hi, ofBlocks_comm
      (hprofiles right (List.mem_of_getElem? hj)) (hprofiles left (List.mem_of_getElem? hi))]

/-- **Equal blocks are twins**: nothing overlaps more with a block than one that is equal to it. -/
theorem twins_of_equal_profiles (hij : i ≠ j) (hi : profiles.values[i]? = some profile)
    (hj : profiles.values[j]? = some profile) :
    (exactOverlaps profiles).toDistances.Twins
      ((exactOverlaps profiles).maxOffDiagonal - ofBlocks profile profile) i j := by
  have hsize : (exactOverlaps profiles).toDistances.size = profiles.values.length := by
    rw [toDistances, size_ofPairs]
    exact size_exactOverlaps profiles
  have hnormal {k : Nat} {other : Profile K} (hk : profiles.values[k]? = some other) :
      IsNormalizedBlock other := hprofiles other (List.mem_of_getElem? hk)
  have hget {k : Nat} (hk : k < (exactOverlaps profiles).toDistances.size) :
      ∃ other, profiles.values[k]? = some other :=
    ⟨_, List.getElem?_eq_getElem (hsize ▸ hk)⟩
  refine ⟨hsize ▸ (List.getElem?_eq_some_iff.mp hi).1, hsize ▸ (List.getElem?_eq_some_iff.mp hj).1, hij,
    pairDistance_toDistances hprofiles hij hi hj, fun k hk hki => ?_, fun k hk hki hkj => ?_,
    fun k l hk hl hkl hki hli hkj hlj hik hil => ?_⟩
  · obtain ⟨other, hother⟩ := hget hk
    rw [pairDistance_toDistances hprofiles hki.symm hi hother]
    exact sub_le_sub_left (ofBlocks_le_self (hnormal hi) (hnormal hother)) _
  · obtain ⟨other, hother⟩ := hget hk
    rw [pairDistance_toDistances hprofiles hki.symm hi hother,
      pairDistance_toDistances hprofiles hkj.symm hj hother]
  · obtain ⟨p, hp⟩ := hget hk
    obtain ⟨q, hq⟩ := hget hl
    rw [pairDistance_toDistances hprofiles hki.symm hi hp, sub_right_inj] at hik
    rw [pairDistance_toDistances hprofiles hli.symm hi hq, sub_right_inj] at hil
    rw [pairDistance_toDistances hprofiles hkl hp hq]
    exact sub_le_sub_left (ofBlocks_self_le (hnormal hi) (hnormal hp) (hnormal hq) hik hil) _

/-- **The largest overlap** of two different blocks is the overlap of two of them. -/
theorem isGreatest_exactOverlaps (hij : i ≠ j) (hi : profiles.values[i]? = some left)
    (hj : profiles.values[j]? = some right) :
    IsGreatest {x | ∃ id id' p q, id ≠ id' ∧ profiles.get? id = some p ∧ profiles.get? id' = some q ∧
      ofBlocks p q = x} (exactOverlaps profiles).maxOffDiagonal := by
  have hi := lt_size_exactOverlaps hi
  have hj := lt_size_exactOverlaps hj
  obtain ⟨⟨k, l, hkl, hl, hmax⟩, hle⟩ :=
    isGreatest_maxOffDiagonal (m := exactOverlaps profiles) (by omega)
  have hplace {k : Nat} (hk : k < (exactOverlaps profiles).size) :
      ∃ other, profiles.values[k]? = some other :=
    ⟨_, List.getElem?_eq_getElem (size_exactOverlaps profiles ▸ hk)⟩
  constructor
  · obtain ⟨p, hp⟩ := hplace (hkl.trans hl)
    obtain ⟨q, hq⟩ := hplace hl
    obtain ⟨id, hget, hid⟩ := Roster.exists_at_place hp
    obtain ⟨id', hget', hid'⟩ := Roster.exists_at_place hq
    refine ⟨id, id', p, q, fun heq => hkl.ne (Roster.place_inj hid (heq ▸ hid')), hget, hget', ?_⟩
    rw [← cell_exactOverlaps hkl hp hq, hmax]
  · rintro _ ⟨id, id', p, q, hne, hp, hq, rfl⟩
    obtain ⟨k, hid, hk⟩ := Roster.exists_place hp
    obtain ⟨l, hid', hl⟩ := Roster.exists_place hq
    have hkl : k ≠ l := fun heq => hne (Option.some.inj (hid.symm.trans (heq ▸ hid')))
    rcases Nat.lt_or_gt_of_ne hkl with hlow | hhigh
    · exact hle ⟨k, l, hlow, lt_size_exactOverlaps hl, cell_exactOverlaps hlow hk hl⟩
    · rw [ofBlocks_comm (hprofiles p (List.mem_of_getElem? hk)) (hprofiles q (List.mem_of_getElem? hl))]
      exact hle ⟨l, k, hhigh, lt_size_exactOverlaps hk, cell_exactOverlaps hhigh hl hk⟩

end ScoreMatrix

/-! ### Labels -/

namespace Analysis

open Overlap

variable (settings : Settings K) (threshold : K) (profiles : Profiles K)

/-- **A run on overlaps** goes through, and it cuts the dendrogram of the distances made from them. -/
theorem exists_run_of_overlap (hmetric : settings.metric = .overlap)
    (hthreshold : settings.threshold = some threshold) :
    ∃ a flat tree, run settings profiles 0 none = .ok a ∧ a.report.flat = some flat ∧
      Dendrogram.ofMatrix settings.linkage (ScoreMatrix.exactOverlaps profiles).toDistances = .ok tree ∧
      tree.cut profiles.ids threshold = .ok flat.assignment := by
  have hchoice : chooseScores settings profiles none =
      .ok (⟨(ScoreMatrix.exactOverlaps profiles).toDistances,
        some (ScoreMatrix.exactOverlaps profiles), 0⟩, false) := by
    rw [chooseScores, score, hmetric, ScoreMatrix.overlaps_eq_ok]
    rfl
  obtain ⟨a, hrun, -, hscores⟩ :=
    exists_run_eq_ok 0 hchoice ScoreMatrix.toDistances_valid profiles.distinct fun _ _ => rfl
  have htree := tree_of_run hrun
  rcases flat_of_run hrun with ⟨hnone, -⟩ | ⟨threshold', flat, hsome, hflat, hcut, -, -⟩
  · rw [hthreshold] at hnone
    cases hnone
  · rw [hthreshold, Option.some.injEq] at hsome
    subst hsome
    rw [hscores] at htree hcut
    exact ⟨a, flat, a.report.tree, hrun, hflat, htree, hcut⟩

/-- **Blocks with equal profiles have the same label** exactly if no two blocks overlap by more than the
roles that the equal blocks use and the threshold together. So they always have it if no block uses more
roles than they do. -/
theorem labels_of_equal_profiles (hmetric : settings.metric = .overlap)
    (hroots : settings.linkage = .ward → ExactRoots K)
    (hthreshold : settings.threshold = some threshold)
    (hprofiles : ∀ profile ∈ profiles.values, IsNormalizedBlock profile) :
    ∃ a flat, run settings profiles 0 none = .ok a ∧ a.report.flat = some flat ∧
      flat.assignment.ids = profiles.ids ∧
      ∀ id id' profile, id ≠ id' → profiles.get? id = some profile →
        profiles.get? id' = some profile →
        (flat.assignment.get? id = flat.assignment.get? id' ↔
          ∀ x y left right, x ≠ y → profiles.get? x = some left → profiles.get? y = some right →
            ofBlocks left right ≤ profile.roles.length + threshold) ∧
        (0 ≤ threshold → (∀ other ∈ profiles.values, other.roles.length ≤ profile.roles.length) →
          flat.assignment.get? id = flat.assignment.get? id') := by
  obtain ⟨a, flat, tree, hrun, hflat, htree, hcut⟩ :=
    exists_run_of_overlap settings threshold profiles hmetric hthreshold
  obtain ⟨labels, hlabels, hlength, htwins⟩ :=
    Dendrogram.labels_eq_iff_of_twins ScoreMatrix.toDistances_valid hroots htree threshold
  have hdistinct : profiles.ids.Nodup := profiles.distinct
  have hassignment : flat.assignment = .ofLabels profiles.ids labels :=
    Except.ok.inj (hcut.symm.trans hlabels)
  have hlength' : profiles.ids.length = labels.length := hlength.symm
  refine ⟨a, flat, hrun, hflat, ?_, fun id id' profile hne hid hid' => ?_⟩
  · rw [hassignment, Assignment.ids_ofLabels hdistinct hlength']
  obtain ⟨i, hi, hvalue⟩ := Roster.exists_place hid
  obtain ⟨j, hj, hvalue'⟩ := Roster.exists_place hid'
  have hij : i ≠ j := fun heq => hne (Option.some.inj (hi.symm.trans (heq ▸ hj)))
  have hself := ofBlocks_self (hprofiles profile (Roster.mem_values_iff.mpr ⟨id, hid⟩))
  have hsame : flat.assignment.get? id = flat.assignment.get? id' ↔
      (ScoreMatrix.exactOverlaps profiles).maxOffDiagonal ≤ profile.roles.length + threshold := by
    rw [hassignment, Assignment.get?_ofLabels hdistinct hlength' hi,
      Assignment.get?_ofLabels hdistinct hlength' hj,
      htwins _ i j (ScoreMatrix.twins_of_equal_profiles hprofiles hij hvalue hvalue'), hself,
      sub_le_iff_le_add']
  obtain ⟨⟨x, y, p, q, hxy, hp, hq, hmax⟩, hle⟩ :=
    ScoreMatrix.isGreatest_exactOverlaps hprofiles hij hvalue hvalue'
  rw [hsame]
  constructor
  · constructor
    · intro hreached x y left right hxy hleft hright
      exact (hle ⟨x, y, left, right, hxy, hleft, hright, rfl⟩).trans hreached
    · intro hall
      rw [← hmax]
      exact hall x y p q hxy hp hq
  · intro hnonneg hroles
    have hp := Roster.mem_values_iff.mpr ⟨x, hp⟩
    have hq := Roster.mem_values_iff.mpr ⟨y, hq⟩
    calc (ScoreMatrix.exactOverlaps profiles).maxOffDiagonal = ofBlocks p q := hmax.symm
      _ ≤ ofBlocks p p := ofBlocks_le_self (hprofiles p hp) (hprofiles q hq)
      _ = p.roles.length := ofBlocks_self (hprofiles p hp)
      _ ≤ profile.roles.length := Nat.cast_le.mpr (hroles p hp)
      _ ≤ profile.roles.length + threshold := le_add_of_nonneg_right hnonneg

end Analysis

namespace Overlap

/-- The distribution of a block in which one token was observed. -/
def only (K : Type) [ExactField K] (token : Token) : Distribution K :=
  ⟨[(token, 1)], List.pairwise_singleton _ _⟩

theorem isNormalized_only (token : Token) : IsNormalized (only K token) := by
  refine ⟨by simp [only, TokenMap.values], fun _ => ?_⟩
  rw [Distribution.total, ExactField.sum_eq]
  simp [only, TokenMap.values]

theorem isNormalized_empty : IsNormalized (.empty : Distribution K) := ⟨nofun, nofun⟩

/-- Two equal blocks that use one role, and two other equal blocks that use all. -/
def oneRoleAndAll (K : Type) [ExactField K] : Profiles K where
  entries :=
    let one := ⟨only K "mov", .empty, .empty⟩
    let all := ⟨only K "add", only K "eax", only K "ebx"⟩
    [(⟨"a"⟩, one), (⟨"b"⟩, one), (⟨"c"⟩, all), (⟨"d"⟩, all)]
  distinct := show ([⟨"a"⟩, ⟨"b"⟩, ⟨"c"⟩, ⟨"d"⟩] : List BlockId).Nodup by decide

theorem isNormalizedBlock_oneRoleAndAll :
    ∀ profile ∈ (oneRoleAndAll K).values, IsNormalizedBlock profile := by
  have hone : IsNormalizedBlock (⟨only K "mov", .empty, .empty⟩ : Profile K) := by
    intro role
    cases role
    exacts [isNormalized_only _, isNormalized_empty, isNormalized_empty]
  have hall : IsNormalizedBlock (⟨only K "add", only K "eax", only K "ebx"⟩ : Profile K) := by
    intro role
    cases role <;> exact isNormalized_only _
  simp [oneRoleAndAll, Roster.values, hone, hall]

omit [ExactField K] in
theorem length_roles_le (profile : Profile K) : profile.roles.length ≤ 3 :=
  List.length_filter_le _ _

end Overlap

open Overlap

/-- At a threshold of two the blocks of one role are together, and with Ward linkage the others are at a
threshold of zero. -/
theorem Analysis.labels_of_oneRoleAndAll :
    let settings : Settings ℚ := { (.standard : Settings ℚ) with metric := .overlap, threshold := some 2 }
    let settings' : Settings ℝ :=
      { (.standard : Settings ℝ) with metric := .overlap, linkage := .ward, threshold := some 0 }
    (∃ a flat, run settings (oneRoleAndAll ℚ) 0 none = .ok a ∧ a.report.flat = some flat ∧
      flat.assignment.get? ⟨"a"⟩ = flat.assignment.get? ⟨"b"⟩) ∧
    ∃ a flat, run settings' (oneRoleAndAll ℝ) 0 none = .ok a ∧ a.report.flat = some flat ∧
      flat.assignment.get? ⟨"c"⟩ = flat.assignment.get? ⟨"d"⟩ := by
  intro settings settings'
  obtain ⟨a, flat, hrun, hflat, -, hlabels⟩ := labels_of_equal_profiles settings 2 (oneRoleAndAll ℚ) rfl
    (fun h => nomatch h) rfl isNormalizedBlock_oneRoleAndAll
  obtain ⟨a', flat', hrun', hflat', -, hlabels'⟩ := labels_of_equal_profiles settings' 0
    (oneRoleAndAll ℝ) rfl (fun _ => exactRoots_real) rfl isNormalizedBlock_oneRoleAndAll
  refine ⟨⟨a, flat, hrun, hflat, ?_⟩, a', flat', hrun', hflat', ?_⟩
  · refine (hlabels ⟨"a"⟩ ⟨"b"⟩ _ (by decide) rfl rfl).1.mpr fun x y left right _ hleft hright => ?_
    have hleft := isNormalizedBlock_oneRoleAndAll left (Roster.mem_values_iff.mpr ⟨x, hleft⟩)
    have hright := isNormalizedBlock_oneRoleAndAll right (Roster.mem_values_iff.mpr ⟨y, hright⟩)
    calc ofBlocks left right ≤ left.roles.length := ofBlocks_self hleft ▸ ofBlocks_le_self hleft hright
      _ ≤ ((3 : Nat) : ℚ) := Nat.cast_le.mpr (length_roles_le left)
      _ = (1 : Nat) + 2 := by norm_num
  · exact (hlabels' ⟨"c"⟩ ⟨"d"⟩ _ (by decide) rfl rfl).2 le_rfl fun other _ => length_roles_le other

/-- At a threshold of a half the blocks of one role are apart, although their profiles are equal: they
overlap in one role, and the others in three. -/
theorem Analysis.equal_profiles_apart :
    let settings : Settings ℚ := { (.standard : Settings ℚ) with metric := .overlap }
    settings.validate = .ok () ∧ settings.threshold = some (1 / 2) ∧ settings.linkage = .average ∧
    (∀ profile ∈ (oneRoleAndAll ℚ).values, IsNormalizedBlock profile) ∧
    (∃ profile, (oneRoleAndAll ℚ).get? ⟨"a"⟩ = some profile ∧
      (oneRoleAndAll ℚ).get? ⟨"b"⟩ = some profile) ∧
    ∃ a flat, run settings (oneRoleAndAll ℚ) 0 none = .ok a ∧ a.report.flat = some flat ∧
      flat.assignment.get? ⟨"a"⟩ ≠ flat.assignment.get? ⟨"b"⟩ := by
  intro settings
  obtain ⟨a, flat, tree, hrun, hflat, htree, hcut⟩ :=
    exists_run_of_overlap settings (1 / 2) (oneRoleAndAll ℚ) rfl rfl
  have hthresholds : settings.badThreshold? = none := by decide +kernel
  refine ⟨by rw [Settings.validate, hthresholds], rfl, rfl, isNormalizedBlock_oneRoleAndAll,
    ⟨_, rfl, rfl⟩, a, flat, hrun, hflat, ?_⟩
  change Dendrogram.ofMatrix .average _ = _ at htree
  have hlabels : ((Dendrogram.ofMatrix .average
        (ScoreMatrix.exactOverlaps (oneRoleAndAll ℚ)).toDistances).bind fun tree =>
      tree.cut (oneRoleAndAll ℚ).ids (1 / 2)).toOption.map (fun flat =>
        (flat.get? ⟨"a"⟩, flat.get? ⟨"b"⟩)) = some (some 1, some 2) := by
    decide +kernel
  rw [htree, Except.bind, hcut] at hlabels
  obtain ⟨ha, hb⟩ := Prod.mk.inj (Option.some.inj hlabels)
  rw [ha, hb]
  decide

end BlockAffinity
