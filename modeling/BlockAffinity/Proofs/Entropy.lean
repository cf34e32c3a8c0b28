import Mathlib
import BlockAffinity.Proofs.Distribution.Stochastic
import BlockAffinity.Proofs.Profile
import BlockAffinity.Proofs.Roster

/-!
# BlockAffinity.Proofs.Entropy

**What the entropy filter keeps**, in real arithmetic, of distributions with positive probabilities.

* Filtering selects the tokens that reach the bar, the mean contribution plus the standard deviation
  (`Entropy.bar`), and divides them by their total (`Entropy.filterDistribution_eq`).
* If all contributions are the same, the bar is this contribution (`Entropy.bar_of_level`) and every
  token reaches it.
* A block stays if one of its tokens reaches its bar (`Entropy.get?_filterProfiles_eq_some_iff`). What
  is left of it is told distribution by distribution (`Entropy.FiltersTo`).
-/

namespace BlockAffinity

open Scalar

/-! ### Mean and deviation -/

namespace Statistics

variable {K : Type} [ExactField K] {xs : List K}

theorem mean_eq (h : xs ≠ []) : mean xs = some (xs.sum / (xs.length : K)) := by
  rw [mean, if_neg (by simpa using h), ExactField.sum_eq]
  rfl

theorem deviation_eq (h : xs ≠ []) :
    deviation xs = some (ExactField.root
      ((xs.map fun x => (x - xs.sum / (xs.length : K)) ^ 2).sum / (xs.length : K))) := by
  rw [deviation, mean_eq h, Option.map_some, ExactField.sum_eq]
  simp only [sq]
  rfl

end Statistics

namespace Entropy

variable {d : Distribution ℝ} {profiles : Profiles ℝ}

/-! ### The bar -/

theorem ofProbability_of_pos {p : ℝ} (h : 0 < p) : ofProbability p = -p * Real.logb 2 p :=
  if_pos (decide_eq_true h)

/-- The contributions of the tokens. -/
noncomputable def contributions (d : Distribution ℝ) : List ℝ := d.values.map ofProbability

/-- The mean contribution. -/
noncomputable def center (d : Distribution ℝ) : ℝ := (contributions d).sum / (contributions d).length

/-- The standard deviation of the contributions as a whole population. -/
noncomputable def spread (d : Distribution ℝ) : ℝ :=
  √(((contributions d).map fun x => (x - center d) ^ 2).sum / (contributions d).length)

/-- The contribution from which on a token is kept. -/
noncomputable def bar (d : Distribution ℝ) : ℝ := center d + spread d

/-- The token is listed, and its contribution reaches the bar up to the forgiven error. -/
def Reaches (d : Distribution ℝ) (token : Token) : Prop :=
  ∃ p, d.get? token = some p ∧ bar d ≤ ofProbability p + slack

theorem threshold?_eq (hne : d.values ≠ []) : threshold? d = some (bar d) := by
  have hcontributions : d.values.map (ofProbability : ℝ → ℝ) ≠ [] := mt List.map_eq_nil_iff.mp hne
  unfold threshold?
  simp only [Statistics.mean_eq hcontributions, Statistics.deviation_eq hcontributions,
    Option.bind_eq_bind, Option.bind_some]
  rfl

theorem slack_eq : (slack : ℝ) = 1 / 10 ^ 12 := rfl

theorem passes_iff {threshold p : ℝ} :
    passes threshold p = true ↔ threshold ≤ ofProbability p + slack :=
  decide_eq_true_iff

/-- **Equal contributions are the bar.** -/
theorem bar_of_level {x : ℝ} (hne : d.values ≠ []) (h : ∀ p ∈ d.values, ofProbability p = x) :
    bar d = x := by
  have hcontributions : contributions d = List.replicate d.values.length x := by
    refine List.eq_replicate_iff.mpr ⟨List.length_map _, fun y hy => ?_⟩
    obtain ⟨p, hp, rfl⟩ := List.mem_map.mp hy
    exact h p hp
  have hlength : (d.values.length : ℝ) ≠ 0 := Nat.cast_ne_zero.mpr (mt List.length_eq_zero_iff.mp hne)
  have hcenter : center d = x := by
    rw [center, hcontributions, List.sum_replicate, List.length_replicate, nsmul_eq_mul,
      mul_div_cancel_left₀ _ hlength]
  have hspread : spread d = 0 := by
    rw [spread, hcenter, hcontributions, List.map_replicate]
    simp
  rw [bar, hcenter, hspread, add_zero]

/-! ### Selecting and rescaling -/

/-- The tokens that reach the bar, with the probabilities that they have. -/
noncomputable def selected (d : Distribution ℝ) : Distribution ℝ := d.filter (passes (bar d))

theorem get?_selected {token : Token} {p : ℝ} :
    (selected d).get? token = some p ↔ d.get? token = some p ∧ bar d ≤ ofProbability p + slack := by
  rw [selected, TokenMap.get?_filter_eq_some_iff, passes_iff]

theorem mem_tokens_selected {token : Token} : token ∈ (selected d).tokens ↔ Reaches d token := by
  simp only [TokenMap.mem_tokens_iff, get?_selected, Reaches]

theorem sum_probability_selected :
    ((selected d).tokens.map d.probability).sum = (selected d).total := by
  rw [Distribution.total, ExactField.sum_eq, TokenMap.tokens, TokenMap.values, List.map_map]
  refine congrArg List.sum (List.map_congr_left fun entry hentry => ?_)
  exact Distribution.probability_of_get? (get?_selected.mp (TokenMap.mem_entries_iff.mp hentry)).1

/-- If all contributions are the same, every token is selected. -/
theorem selected_of_level
    (h : ∀ p ∈ d.values, ∀ q ∈ d.values, (ofProbability p : ℝ) = ofProbability q) : selected d = d := by
  refine TokenMap.ext_get? fun token => Option.ext fun p => ?_
  rw [get?_selected, and_iff_left_iff_imp]
  intro hp
  have hmem : p ∈ d.values := TokenMap.mem_values_iff.mpr ⟨token, hp⟩
  rw [bar_of_level (List.ne_nil_of_mem hmem) fun q hq => h q hq p hmem, slack_eq]
  exact le_add_of_nonneg_right (by positivity)

theorem pos_of_mem_selected (h : ∀ p ∈ d.values, 0 < p) {p : ℝ} (hp : p ∈ (selected d).values) :
    0 < p := by
  obtain ⟨token, htoken⟩ := TokenMap.mem_values_iff.mp hp
  exact h p (TokenMap.mem_values_iff.mpr ⟨token, (get?_selected.mp htoken).1⟩)

/-- **The filter selects and rescales.** -/
theorem filterDistribution_eq (h : ∀ p ∈ d.values, 0 < p) :
    filterDistribution d = (selected d).map fun p => p / (selected d).total := by
  by_cases hne : d.values = []
  · obtain rfl := TokenMap.eq_empty_of_values hne
    rfl
  · rw [filterDistribution, threshold?_eq hne]
    exact Distribution.ofWeights_entries_of_pos fun p hp => pos_of_mem_selected h hp

section Positive

variable (h : ∀ p ∈ d.values, 0 < p)

include h

theorem tokens_filterDistribution : (filterDistribution d).tokens = (selected d).tokens := by
  rw [filterDistribution_eq h, TokenMap.tokens_map]

theorem values_filterDistribution :
    (filterDistribution d).values = (selected d).values.map fun p => p / (selected d).total := by
  rw [filterDistribution_eq h, TokenMap.values_map]

theorem total_selected_pos (hne : (selected d).values ≠ []) : 0 < (selected d).total :=
  Distribution.total_pos (fun _ => pos_of_mem_selected h) hne

theorem pos_of_mem_filterDistribution {p : ℝ} (hp : p ∈ (filterDistribution d).values) : 0 < p := by
  rw [values_filterDistribution h] at hp
  obtain ⟨q, hq, rfl⟩ := List.mem_map.mp hp
  exact div_pos (pos_of_mem_selected h hq) (total_selected_pos h (List.ne_nil_of_mem hq))

/-- A token that is left has its old probability, divided by a positive number. -/
theorem probability_filterDistribution {token : Token} (htoken : token ∈ (filterDistribution d).tokens) :
    0 < (selected d).total ∧
      (filterDistribution d).probability token = d.probability token / (selected d).total := by
  rw [tokens_filterDistribution h] at htoken
  obtain ⟨p, hp⟩ := TokenMap.mem_tokens_iff.mp htoken
  have hmem : p ∈ (selected d).values := TokenMap.mem_values_iff.mpr ⟨token, hp⟩
  have hnew : (filterDistribution d).get? token = some (p / (selected d).total) := by
    rw [filterDistribution_eq h]
    exact TokenMap.get?_map_eq_some_iff.mpr ⟨p, hp, rfl⟩
  rw [Distribution.probability_of_get? hnew,
    Distribution.probability_of_get? (get?_selected.mp hp).1]
  exact ⟨total_selected_pos h (List.ne_nil_of_mem hmem), rfl⟩

theorem total_filterDistribution (hempty : (filterDistribution d).isEmpty = false) :
    (filterDistribution d).total = 1 := by
  rw [TokenMap.isEmpty_eq_false_iff, values_filterDistribution h, ne_eq, List.map_eq_nil_iff] at hempty
  rw [filterDistribution_eq h, Distribution.total_map_div]
  exact div_self (total_selected_pos h hempty).ne'

theorem filterDistribution_of_level (hone : d.total = 1)
    (hlevel : ∀ p ∈ d.values, ∀ q ∈ d.values, ofProbability p = ofProbability q) :
    filterDistribution d = d := by
  rw [filterDistribution_eq h, selected_of_level hlevel]
  exact Distribution.map_div_of_eq_one hone

end Positive

/-- What the filter makes of a distribution. The tokens that are left are those that reach the bar, and
they share the total of one in the proportions that they had. -/
structure FiltersTo (d kept : Distribution ℝ) : Prop where
  mem_tokens_iff : ∀ token, token ∈ kept.tokens ↔ Reaches d token
  positive : ∀ p ∈ kept.values, 0 < p
  probability_eq : ∀ token ∈ kept.tokens,
    kept.probability token = d.probability token / (kept.tokens.map d.probability).sum
  ratio_eq : ∀ s ∈ kept.tokens, ∀ t ∈ kept.tokens,
    kept.probability s / kept.probability t = d.probability s / d.probability t
  total_eq : kept.isEmpty = false → kept.total = 1
  /-- Nothing happens if all contributions are the same, -/
  eq_of_level : d.total = 1 →
    (∀ p ∈ d.values, ∀ q ∈ d.values, ofProbability p = ofProbability q) → kept = d
  /-- as they are in a uniform distribution -/
  eq_of_uniform : d.total = 1 → (∀ p ∈ d.values, ∀ q ∈ d.values, p = q) → kept = d
  /-- and in that of a single token. -/
  eq_of_single : d.total = 1 → d.size = 1 → kept = d

/-- **What the filter leaves of a distribution.** -/
theorem filtersTo_filterDistribution (h : ∀ p ∈ d.values, 0 < p) :
    FiltersTo d (filterDistribution d) where
  mem_tokens_iff token := by rw [tokens_filterDistribution h, mem_tokens_selected]
  positive _ := pos_of_mem_filterDistribution h
  probability_eq token htoken := by
    rw [tokens_filterDistribution h, sum_probability_selected]
    exact (probability_filterDistribution h htoken).2
  ratio_eq s hs t ht := by
    obtain ⟨htotal, hs⟩ := probability_filterDistribution h hs
    rw [hs, (probability_filterDistribution h ht).2]
    exact div_div_div_cancel_right₀ htotal.ne' _ _
  total_eq := total_filterDistribution h
  eq_of_level := filterDistribution_of_level h
  eq_of_uniform hone hsame :=
    filterDistribution_of_level h hone fun p hp q hq => congrArg ofProbability (hsame p hp q hq)
  eq_of_single hone hsize := by
    obtain ⟨entry, hentry⟩ := List.length_eq_one_iff.mp hsize
    refine filterDistribution_of_level h hone fun p hp q hq => ?_
    rw [TokenMap.values, hentry, List.map_singleton, List.mem_singleton] at hp hq
    rw [hp, hq]

/-! ### Blocks -/

theorem get?_filterProfiles_eq_some_iff {id : BlockId} {left : Profile ℝ} :
    (filterProfiles profiles).get? id = some left ↔
      ∃ profile, profiles.get? id = some profile ∧ filterProfile profile = left ∧
        left.isEmpty = false := by
  rw [filterProfiles, Roster.get?_filterMap, Option.bind_eq_some_iff]
  refine exists_congr fun profile => and_congr_right fun _ => ?_
  rw [Option.ite_none_left_eq_some, Option.some.injEq, Bool.not_eq_true]
  constructor
  · rintro ⟨hempty, rfl⟩
    exact ⟨rfl, hempty⟩
  · rintro ⟨rfl, hempty⟩
    exact ⟨hempty, rfl⟩

theorem isEmpty_filterDistribution (h : ∀ p ∈ d.values, 0 < p) :
    (filterDistribution d).isEmpty = true ↔ ∀ token, ¬Reaches d token := by
  rw [TokenMap.isEmpty, List.isEmpty_iff, ← List.map_eq_nil_iff (f := Prod.fst),
    List.eq_nil_iff_forall_not_mem]
  exact forall_congr' fun token => not_congr ((filtersTo_filterDistribution h).mem_tokens_iff token)

/-- A block is dropped if none of its tokens reaches its bar. -/
theorem notMem_ids_filterProfiles_iff {id : BlockId} {profile : Profile ℝ}
    (hfound : profiles.get? id = some profile) (h : ∀ role, ∀ p ∈ (profile.get role).values, 0 < p) :
    id ∉ (filterProfiles profiles).ids ↔ ∀ role token, ¬Reaches (profile.get role) token := by
  have hempty : (filterProfile profile).isEmpty = true ↔
      ∀ role token, ¬Reaches (profile.get role) token := by
    rw [← Bool.not_eq_false, Profile.isEmpty_eq_false_iff, not_exists]
    refine forall_congr' fun role => ?_
    rw [filterProfile, PerRole.get_map, Bool.not_eq_false, isEmpty_filterDistribution (h role)]
  rw [← hempty, Roster.mem_ids_iff]
  simp only [get?_filterProfiles_eq_some_iff, hfound, Option.some.injEq, ↓existsAndEq, true_and,
    Bool.not_eq_false]

end Entropy

/-- **The entropy filter.** In every distribution the tokens that reach the bar are kept and rescaled,
what keeps no token is dropped, and the blocks that stay keep their order. What becomes of a block
depends on this block alone. -/
theorem Entropy.filterProfiles_of_positive {profiles : Profiles ℝ}
    (h : ∀ profile ∈ profiles.values, ∀ role, ∀ p ∈ (profile.get role).values, 0 < p) :
    (filterProfiles profiles).ids.Sublist profiles.ids ∧
    ∀ id profile, profiles.get? id = some profile →
      (id ∉ (filterProfiles profiles).ids ↔ ∀ role token, ¬Reaches (profile.get role) token) ∧
      (∀ left, (filterProfiles profiles).get? id = some left → ∀ role,
        FiltersTo (profile.get role) (left.get role) ∧
        (left.get? role = none ↔ ∀ token, ¬Reaches (profile.get role) token)) ∧
      ∀ other : Profiles ℝ, other.get? id = profiles.get? id →
        (filterProfiles other).get? id = (filterProfiles profiles).get? id := by
  refine ⟨Roster.ids_filterMap_sublist _ _, fun id profile hfound => ?_⟩
  have hpositive := h profile (Roster.mem_values_iff.mpr ⟨id, hfound⟩)
  refine ⟨notMem_ids_filterProfiles_iff hfound hpositive, fun left hleft role => ?_, fun other hsame => ?_⟩
  · obtain ⟨_, hagain, rfl, -⟩ := get?_filterProfiles_eq_some_iff.mp hleft
    obtain rfl := Option.some.inj (hfound.symm.trans hagain)
    rw [Profile.get?, filterProfile, PerRole.get_map, ← isEmpty_filterDistribution (hpositive role)]
    refine ⟨filtersTo_filterDistribution (hpositive role), ?_⟩
    cases (filterDistribution (profile.get role)).isEmpty <;> simp
  · rw [filterProfiles, filterProfiles, Roster.get?_filterMap, Roster.get?_filterMap, hsame]

namespace Entropy

/-- Contributions 1/2, 1/2, 3/8 and 3/8, with the bar at 1/2. -/
noncomputable def evenlySplit : Distribution ℝ :=
  ⟨[("add", half), ("mov", half ^ 2), ("nop", half ^ 3), ("ret", half ^ 3)], by
    simp only [List.pairwise_cons]
    decide⟩

/-- Contributions 1/2, 1/2, 1/2, 3/8 and 3/8: the bar is above all of them. -/
noncomputable def crowded : Distribution ℝ :=
  ⟨[("add", half ^ 2), ("mov", half ^ 2), ("nop", half ^ 2), ("ret", half ^ 3), ("xor", half ^ 3)], by
    simp only [List.pairwise_cons]
    decide⟩

theorem ofProbability_half_pow (n : Nat) : ofProbability ((half : ℝ) ^ n) = n * (1 / 2) ^ n := by
  have hhalf : (half : ℝ) = 2⁻¹ := one_div 2
  have hlog : Real.logb 2 (half : ℝ) = -1 := by
    rw [hhalf, Real.logb_inv, Real.logb_self_eq_one one_lt_two]
  rw [ofProbability_of_pos (by rw [hhalf]; positivity), Real.logb_pow, hlog, hhalf]
  ring

theorem bar_evenlySplit : bar evenlySplit = 1 / 2 := by
  have hcontributions : contributions evenlySplit = [1 / 2, 1 / 2, 3 / 8, 3 / 8] := by
    have hone := ofProbability_half_pow 1
    rw [pow_one] at hone
    simp only [contributions, evenlySplit, TokenMap.values, List.map_cons, List.map_nil, hone,
      ofProbability_half_pow]
    norm_num
  have hcenter : center evenlySplit = 7 / 16 := by
    rw [center, hcontributions]
    norm_num
  rw [bar, spread, hcenter, hcontributions]
  norm_num

theorem lt_bar_crowded : 1 / 2 + slack < bar crowded := by
  have hcontributions : contributions crowded = [1 / 2, 1 / 2, 1 / 2, 3 / 8, 3 / 8] := by
    simp only [contributions, crowded, TokenMap.values, List.map_cons, List.map_nil,
      ofProbability_half_pow]
    norm_num
  have hcenter : center crowded = 9 / 20 := by
    rw [center, hcontributions]
    norm_num
  have hspread : 3 / 50 < spread crowded := by
    refine Real.lt_sqrt_of_sq_lt ?_
    rw [hcenter, hcontributions]
    norm_num
  rw [bar, hcenter, slack_eq]
  linarith

theorem reaches_evenlySplit (token : Token) :
    Reaches evenlySplit token ↔ token = "add" ∨ token = "mov" := by
  rw [Reaches, bar_evenlySplit, slack_eq]
  have hone := ofProbability_half_pow 1
  rw [pow_one] at hone
  simp only [← TokenMap.mem_entries_iff, evenlySplit, List.mem_cons, List.not_mem_nil, or_false,
    Prod.mk.injEq]
  constructor
  · rintro ⟨p, ⟨rfl, rfl⟩ | ⟨rfl, rfl⟩ | ⟨rfl, rfl⟩ | ⟨rfl, rfl⟩, hp⟩
    · exact .inl rfl
    · exact .inr rfl
    all_goals
      rw [ofProbability_half_pow] at hp
      norm_num at hp
  · rintro (rfl | rfl)
    · exact ⟨_, .inl ⟨rfl, rfl⟩, by rw [hone]; norm_num⟩
    · exact ⟨_, .inr (.inl ⟨rfl, rfl⟩), by rw [ofProbability_half_pow]; norm_num⟩

theorem not_reaches_crowded (token : Token) : ¬Reaches crowded token := by
  rintro ⟨p, hp, hbar⟩
  have hbelow : ofProbability p ≤ 1 / 2 := by
    have hp : p ∈ crowded.values := TokenMap.mem_values_iff.mpr ⟨token, hp⟩
    simp only [crowded, TokenMap.values, List.map_cons, List.map_nil, List.mem_cons, List.not_mem_nil,
      or_false] at hp
    rcases hp with rfl | rfl | rfl | rfl | rfl
    all_goals
      rw [ofProbability_half_pow]
      norm_num
  linarith [lt_bar_crowded]

/-- The instructions of one block are split evenly, those of the other are crowded. -/
noncomputable def splitAndCrowded : Profiles ℝ :=
  ⟨[(⟨"split"⟩, ⟨evenlySplit, .empty, .empty⟩), (⟨"crowded"⟩, ⟨crowded, .empty, .empty⟩)], by decide⟩

theorem pos_of_mem_splitAndCrowded : ∀ profile ∈ splitAndCrowded.values, ∀ role,
    ∀ p ∈ (profile.get role).values, 0 < p := by
  intro profile hprofile role p hp
  simp only [splitAndCrowded, Roster.values, List.map_cons, List.map_nil, List.mem_cons,
    List.not_mem_nil, or_false] at hprofile
  rcases hprofile with rfl | rfl
  all_goals
    cases role
    case instruction =>
      simp only [PerRole.get, evenlySplit, crowded, TokenMap.values, List.map_cons, List.map_nil,
        List.mem_cons, List.not_mem_nil, or_false] at hp
      have hhalf : (0 : ℝ) < half := one_half_pos
      rcases hp with rfl | rfl | rfl | rfl | rfl <;> positivity
    all_goals simp [PerRole.get, TokenMap.values, TokenMap.empty] at hp

end Entropy

/-- One block keeps two of its four tokens, in the proportion that they had, the other keeps none. -/
theorem Entropy.filterProfiles_of_splitAndCrowded :
    (∀ profile ∈ splitAndCrowded.values, ∀ role, ∀ p ∈ (profile.get role).values, 0 < p) ∧
    (⟨"crowded"⟩ : BlockId) ∉ (filterProfiles splitAndCrowded).ids ∧
    ∃ left, (filterProfiles splitAndCrowded).get? ⟨"split"⟩ = some left ∧
      (∀ token, token ∈ (left.get .instruction).tokens ↔ token = "add" ∨ token = "mov") ∧
      (left.get .instruction).probability "add" / (left.get .instruction).probability "mov" = 2 ∧
      (left.get .instruction).total = 1 ∧ left.get? .leftOperand = none := by
  have hpositive := pos_of_mem_splitAndCrowded
  obtain ⟨-, hblocks⟩ := filterProfiles_of_positive hpositive
  obtain ⟨hsplit, hleft, -⟩ := hblocks ⟨"split"⟩ _ rfl
  obtain ⟨hcrowded, -, -⟩ := hblocks ⟨"crowded"⟩ _ rfl
  have hempty (token : Token) : ¬Reaches .empty token := by
    rintro ⟨p, hp, -⟩
    cases hp
  refine ⟨hpositive, hcrowded.mpr fun role token => ?_, ?_⟩
  · cases role
    exacts [not_reaches_crowded token, hempty token, hempty token]
  have hmem : (⟨"split"⟩ : BlockId) ∈ (filterProfiles splitAndCrowded).ids := by
    by_contra hnot
    exact hsplit.mp hnot .instruction "add" ((reaches_evenlySplit "add").mpr (.inl rfl))
  obtain ⟨left, hfound⟩ := Roster.mem_ids_iff.mp hmem
  have hinstructions : FiltersTo evenlySplit (left.get .instruction) := (hleft left hfound .instruction).1
  have htokens (token : Token) :
      token ∈ (left.get .instruction).tokens ↔ token = "add" ∨ token = "mov" :=
    (hinstructions.mem_tokens_iff token).trans (reaches_evenlySplit token)
  refine ⟨left, hfound, htokens, ?_, hinstructions.total_eq ?_,
    (hleft left hfound .leftOperand).2.mpr hempty⟩
  · have hadd : evenlySplit.probability "add" = 1 / 2 := Distribution.probability_of_get? rfl
    have hmov : evenlySplit.probability "mov" = (1 / 2) ^ 2 := Distribution.probability_of_get? rfl
    rw [hinstructions.ratio_eq "add" ((htokens _).mpr (.inl rfl)) "mov" ((htokens _).mpr (.inr rfl)),
      hadd, hmov]
    norm_num
  · rw [← Bool.not_eq_true]
    intro hnone
    have hadd := (htokens "add").mpr (.inl rfl)
    rw [TokenMap.tokens_of_isEmpty hnone] at hadd
    cases hadd

end BlockAffinity
