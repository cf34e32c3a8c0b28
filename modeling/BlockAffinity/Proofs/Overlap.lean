import Mathlib
import BlockAffinity.Divergence
import BlockAffinity.Proofs.Distribution.Stochastic
import BlockAffinity.Proofs.Number.NeutralZero
import BlockAffinity.Proofs.Profile

/-!
# BlockAffinity.Proofs.Overlap

**What the overlap adds up.** The overlap goes through the shorter of two lists of tokens only. It is
the same as the sum over the tokens of both (`overlapOfUnion`), because a token that one side does not
list adds zero there.

* `same_ofDistributions`, `same_ofDistributions_comm`: with values that are not negative, for doubles
  as for exact numbers.
* `same_ofBlocks`: the overlap of blocks is the sum over all roles.
* `ofDistributions_eq_sum`: with exact numbers a sum over any tokens that include those of both, so the
  overlap is at most either total, and equal to it for probabilities that are at most the other ones.
-/

namespace BlockAffinity

open Scalar

namespace Overlap

/-- The tokens that at least one of two distributions lists, in token order. -/
def tokensOfUnion {β : Type} (p q : TokenMap β) : List Token :=
  (p.tokens.toFinset ∪ q.tokens.toFinset).sort (· ≤ ·)

section tokens

variable {β : Type} {p q r : TokenMap β}

theorem mem_tokensOfUnion {token : Token} :
    token ∈ tokensOfUnion p q ↔ token ∈ p.tokens ∨ token ∈ q.tokens := by
  simp [tokensOfUnion]

theorem tokensOfUnion_comm (p q : TokenMap β) : tokensOfUnion p q = tokensOfUnion q p := by
  rw [tokensOfUnion, tokensOfUnion, Finset.union_comm]

theorem filter_tokensOfUnion (h : r.tokens ⊆ tokensOfUnion p q) :
    (tokensOfUnion p q).filter (· ∈ r.tokens) = r.tokens := by
  have hsorted : ((tokensOfUnion p q).filter (· ∈ r.tokens)).Pairwise (· < ·) :=
    (Finset.sortedLT_sort _).pairwise.filter _
  have hascending : r.tokens.Pairwise (· < ·) := List.Pairwise.map _ (fun _ _ h => h) r.ascending
  refine hsorted.eq_of_mem_iff hascending fun token => ?_
  rw [List.mem_filter, decide_eq_true_eq]
  exact ⟨fun hmem => hmem.2, fun hmem => ⟨h hmem, hmem⟩⟩

end tokens

section sums

variable {α : Type} [Scalar α]

/-- The sum of the lesser probabilities over the tokens of both distributions, in token order. -/
def overlapOfUnion (p q : Distribution α) : α :=
  sum ((tokensOfUnion p q).map fun token =>
    minimum (Distribution.probability p token) (Distribution.probability q token))

theorem within_eq (small large : Distribution α) :
    within small large = sum (small.tokens.map fun token =>
      minimum (Distribution.probability small token) (Distribution.probability large token)) := by
  rw [within, TokenMap.tokens, List.map_map]
  refine congrArg sum (List.map_congr_left fun entry hentry => ?_)
  rw [Function.comp_apply,
    Distribution.probability_of_get? (TokenMap.mem_entries_iff.mp hentry)]

end sums

/-! ### The shorter list is enough -/

section same

variable {α : Type} [Scalar α] [NeutralZero α] {p q : Distribution α}

theorem zero_le_probability (hp : ∀ x ∈ p.values, le zero x = true) (token : Token) :
    le zero (Distribution.probability p token) = true := by
  cases hget : p.get? token with
  | none =>
      rw [Distribution.probability, hget]
      exact zero_le_zero
  | some x =>
      rw [Distribution.probability_of_get? hget]
      exact hp x (TokenMap.mem_values_iff.mpr ⟨token, hget⟩)

variable (hp : ∀ x ∈ p.values, le zero x = true) (hq : ∀ x ∈ q.values, le zero x = true)
include hp hq

/-- Either list is enough. -/
theorem same_overlapOfUnion_within : Same (overlapOfUnion p q) (within p q) := by
  rw [within_eq, ← filter_tokensOfUnion (q := q) fun token h => mem_tokensOfUnion.mpr (.inl h)]
  refine same_sum_filter (fun token _ _ => ?_) fun token _ hskip => ?_
  · exact .refl (same_minimum_comm (zero_le_probability hp token) (zero_le_probability hq token)).1
  · rw [Distribution.probability_eq_zero (of_decide_eq_false hskip)]
    exact (same_minimum_comm zero_le_zero (zero_le_probability hq token)).trans
      (same_minimum_zero (zero_le_probability hq token))

theorem same_overlapOfUnion_comm : Same (overlapOfUnion p q) (overlapOfUnion q p) := by
  rw [overlapOfUnion, overlapOfUnion, tokensOfUnion_comm]
  exact same_sum fun token _ =>
    same_minimum_comm (zero_le_probability hp token) (zero_le_probability hq token)

/-- **The overlap is the sum over the tokens of both distributions.** -/
theorem same_ofDistributions : Same (ofDistributions p q) (overlapOfUnion p q) := by
  rw [ofDistributions]
  split
  · exact (same_overlapOfUnion_within hp hq).symm
  · exact ((same_overlapOfUnion_comm hp hq).trans (same_overlapOfUnion_within hq hp)).symm

theorem same_ofDistributions_comm : Same (ofDistributions p q) (ofDistributions q p) :=
  ((same_ofDistributions hp hq).trans (same_overlapOfUnion_comm hp hq)).trans
    (same_ofDistributions hq hp).symm

end same

/-! ### Blocks -/

section blocks

variable {α : Type} [Scalar α]

/-- A distribution without tokens has no overlap. -/
theorem ofDistributions_of_isEmpty {p q : Distribution α} (h : p.isEmpty = true ∨ q.isEmpty = true) :
    ofDistributions p q = sumStart := by
  have hnone {small large : Distribution α} (h : small.entries = []) :
      within small large = sumStart := by
    rw [within, h, List.map_nil, sum_nil]
  rw [ofDistributions]
  rcases h with h | h
  · have hentries := List.isEmpty_iff.mp h
    rw [if_pos (by simp [TokenMap.size, hentries]), hnone hentries]
  · have hentries := List.isEmpty_iff.mp h
    split
    · rename_i hle
      have hsize : p.entries.length ≤ 0 := by simpa [TokenMap.size, hentries] using hle
      exact hnone (List.length_eq_zero_iff.mp (Nat.le_zero.mp hsize))
    · exact hnone hentries

/-- The roles that count are those that both blocks use. -/
theorem ofBlocks_eq (left right : Profile α) :
    ofBlocks left right = sum ((Role.all.filter fun role =>
      !((left.get role).isEmpty || (right.get role).isEmpty)).map fun role =>
        ofDistributions (left.get role) (right.get role)) := by
  rw [ofBlocks, Profile.roles, ← List.filterMap_eq_map, ← List.filterMap_eq_filter,
    ← List.filterMap_eq_filter, List.filterMap_filterMap, List.filterMap_filterMap]
  refine congrArg sum (List.filterMap_congr fun role _ => ?_)
  cases hleft : (left.get role).isEmpty <;> cases hright : (right.get role).isEmpty <;>
    simp [Profile.get?, hleft, hright, Option.guard]

variable [NeutralZero α] {left right : Profile α}
  (hleft : ∀ role, ∀ x ∈ (left.get role).values, le zero x = true)
  (hright : ∀ role, ∀ x ∈ (right.get role).values, le zero x = true)
include hleft hright

/-- **The overlap of two blocks is the sum over all roles.** -/
theorem same_ofBlocks : Same (ofBlocks left right)
    (sum (Role.all.map fun role => ofDistributions (left.get role) (right.get role))) := by
  rw [ofBlocks_eq]
  refine (same_sum_filter (fun role _ _ => ?_) fun role _ hskip => ?_).symm
  · exact .refl (same_ofDistributions (hleft role) (hright role)).1
  · rw [Bool.not_eq_false', Bool.or_eq_true] at hskip
    rw [ofDistributions_of_isEmpty hskip]
    exact NeutralZero.same_start

theorem same_ofBlocks_comm : Same (ofBlocks left right) (ofBlocks right left) :=
  ((same_ofBlocks hleft hright).trans
    (same_sum fun role _ => same_ofDistributions_comm (hleft role) (hright role))).trans
    (same_ofBlocks hright hleft).symm

end blocks

/-! ### Exact numbers -/

section exact

variable {K : Type} [ExactField K] {p q : Distribution K}

theorem probability_nonneg (hp : ∀ x ∈ p.values, 0 ≤ x) (token : Token) : 0 ≤ p.probability token :=
  of_decide_eq_true (zero_le_probability (fun x hx => decide_eq_true (hp x hx)) token)

theorem within_eq_sum {small large : Distribution K} (h : ∀ x ∈ large.values, 0 ≤ x)
    {tokens : Finset Token} (htokens : small.tokens.toFinset ⊆ tokens) :
    within small large =
      ∑ token ∈ tokens, min (small.probability token) (large.probability token) := by
  rw [within, ExactField.sum_eq]
  exact Distribution.sum_entries (f := fun token x => min x (large.probability token))
    (fun token => min_eq_left (probability_nonneg h token)) htokens

variable (hp : ∀ x ∈ p.values, 0 ≤ x) (hq : ∀ x ∈ q.values, 0 ≤ x)
include hp hq

/-- **The overlap is a sum over tokens**, those of the two distributions and any others. -/
theorem ofDistributions_eq_sum {tokens : Finset Token} (hleft : p.tokens.toFinset ⊆ tokens)
    (hright : q.tokens.toFinset ⊆ tokens) :
    ofDistributions p q = ∑ token ∈ tokens, min (p.probability token) (q.probability token) := by
  rw [ofDistributions]
  split
  · exact within_eq_sum hq hleft
  · rw [within_eq_sum hp hright]
    exact Finset.sum_congr rfl fun token _ => min_comm _ _

theorem ofDistributions_nonneg : 0 ≤ ofDistributions p q := by
  rw [ofDistributions_eq_sum hp hq Finset.subset_union_left Finset.subset_union_right]
  exact Finset.sum_nonneg fun token _ =>
    le_min (probability_nonneg hp token) (probability_nonneg hq token)

theorem ofDistributions_le_total : ofDistributions p q ≤ p.total := by
  rw [ofDistributions_eq_sum hp hq Finset.subset_union_left Finset.subset_union_right,
    Distribution.total_eq_sum Finset.subset_union_left]
  exact Finset.sum_le_sum fun token _ => min_le_left _ _

/-- **The overlap is a total** if that distribution is below the other one for every token. -/
theorem ofDistributions_eq_total_iff :
    ofDistributions p q = p.total ↔ ∀ token, p.probability token ≤ q.probability token := by
  rw [ofDistributions_eq_sum hp hq Finset.subset_union_left Finset.subset_union_right,
    Distribution.total_eq_sum Finset.subset_union_left,
    Finset.sum_eq_sum_iff_of_le fun token _ => min_le_left _ _]
  simp only [min_eq_left_iff]
  constructor
  · intro h token
    by_cases htoken : token ∈ p.tokens
    · exact h token (Finset.mem_union_left _ (List.mem_toFinset.mpr htoken))
    · rw [Distribution.probability_of_notMem htoken]
      exact probability_nonneg hq token
  · intro h token _
    exact h token

/-- **Normalised distributions overlap in one** only if they give all tokens the same probability. -/
theorem ofDistributions_eq_one_iff (htotal : p.total = 1) (htotal' : q.total = 1) :
    ofDistributions p q = 1 ↔ ∀ token, p.probability token = q.probability token := by
  have hcomm : ofDistributions p q = ofDistributions q p :=
    (ExactField.same_iff.mp (same_ofDistributions_comm (fun x hx => decide_eq_true (hp x hx))
      fun x hx => decide_eq_true (hq x hx))).2
  constructor
  · intro hone token
    have hle := (ofDistributions_eq_total_iff hp hq).mp (hone.trans htotal.symm) token
    have hge := (ofDistributions_eq_total_iff hq hp).mp (hcomm.symm.trans (hone.trans htotal'.symm))
      token
    exact le_antisymm hle hge
  · intro h
    rw [← htotal]
    exact (ofDistributions_eq_total_iff hp hq).mpr fun token => (h token).le

end exact

/-! ### Normalised blocks -/

/-- Probabilities that are not negative and add up to one, if there are any. -/
structure IsNormalized {K : Type} [ExactField K] (d : Distribution K) : Prop where
  nonneg : ∀ x ∈ d.values, 0 ≤ x
  total_eq : d.isEmpty = false → d.total = 1

section normalized

variable {K : Type} [ExactField K] {left right : Profile K}

theorem ofDistributions_self {d : Distribution K} (h : IsNormalized d) :
    ofDistributions d d = d.total :=
  (ofDistributions_eq_total_iff h.nonneg h.nonneg).mpr fun _ => le_rfl

theorem ofBlocks_eq_sum_roles (hleft : ∀ role, IsNormalized (left.get role))
    (hright : ∀ role, IsNormalized (right.get role)) :
    ofBlocks left right =
      (Role.all.map fun role => ofDistributions (left.get role) (right.get role)).sum := by
  rw [← ExactField.sum_eq]
  exact (ExactField.same_iff.mp
    (same_ofBlocks (fun role x hx => decide_eq_true ((hleft role).nonneg x hx))
      fun role x hx => decide_eq_true ((hright role).nonneg x hx))).2

/-- **No block overlaps more** with another one than with itself. -/
theorem ofBlocks_le_self (hleft : ∀ role, IsNormalized (left.get role))
    (hright : ∀ role, IsNormalized (right.get role)) : ofBlocks left right ≤ ofBlocks left left := by
  rw [ofBlocks_eq_sum_roles hleft hright, ofBlocks_eq_sum_roles hleft hleft]
  refine List.sum_le_sum fun role _ => ?_
  rw [ofDistributions_self (hleft role)]
  exact ofDistributions_le_total (hleft role).nonneg (hright role).nonneg

/-- The overlap of a block with itself counts its roles. -/
theorem ofBlocks_self (hleft : ∀ role, IsNormalized (left.get role)) :
    ofBlocks left left = left.roles.length := by
  have hroles : ofBlocks left left =
      (left.roles.map fun role => ofDistributions (left.get role) (left.get role)).sum := by
    rw [ofBlocks_eq, ExactField.sum_eq]
    simp only [Bool.or_self]
    rfl
  have hone : ∀ value ∈ left.roles.map fun role => ofDistributions (left.get role) (left.get role),
      value = 1 := by
    intro value hvalue
    obtain ⟨role, hrole, rfl⟩ := List.mem_map.mp hvalue
    have hempty : (left.get role).isEmpty = false := by
      simpa using (List.mem_filter.mp hrole).2
    rw [ofDistributions_self (hleft role), (hleft role).total_eq hempty]
  rw [hroles, List.sum_eq_card_nsmul _ _ hone, List.length_map, nsmul_one]

end normalized

end Overlap

/-- **The laws of the overlap.** In doubles that are not negative, and up to the sign of zero, it is the
sum of the lesser probabilities over the tokens of both distributions and does not depend on their
order; the overlap of blocks is the sum over all roles. In exact arithmetic the same values are equal.
The overlap of normalised distributions lies between zero and one and is one for equal distributions
only, and a block overlaps with itself in as many roles as it uses, and with no other block more. -/
theorem Overlap.laws_of_nonneg :
    (∀ p q : Distribution Float, (∀ x ∈ p.values, le zero x = true) →
      (∀ x ∈ q.values, le zero x = true) →
      eq (ofDistributions p q) (overlapOfUnion p q) = true ∧
      eq (ofDistributions p q) (ofDistributions q p) = true) ∧
    (∀ left right : Profile Float, (∀ role, ∀ x ∈ (left.get role).values, le zero x = true) →
      (∀ role, ∀ x ∈ (right.get role).values, le zero x = true) →
      eq (ofBlocks left right) (ofBlocks right left) = true ∧
      eq (ofBlocks left right)
        (sum (Role.all.map fun role => ofDistributions (left.get role) (right.get role))) = true) ∧
    ∀ (K : Type) [ExactField K],
      (∀ p q : Distribution K, (∀ x ∈ p.values, 0 ≤ x) → (∀ x ∈ q.values, 0 ≤ x) →
        ofDistributions p q = overlapOfUnion p q ∧ ofDistributions p q = ofDistributions q p ∧
        (p.total = 1 → q.total = 1 →
          0 ≤ ofDistributions p q ∧ ofDistributions p q ≤ 1 ∧
          (ofDistributions p q = 1 ↔ ∀ token, p.probability token = q.probability token) ∧
          ((∀ x ∈ p.values, 0 < x) → (∀ x ∈ q.values, 0 < x) →
            (ofDistributions p q = 1 ↔ p = q)))) ∧
      ∀ left right : Profile K, (∀ role, IsNormalized (left.get role)) →
        (∀ role, IsNormalized (right.get role)) →
        ofBlocks left right = ofBlocks right left ∧
        ofBlocks left right =
          (Role.all.map fun role => ofDistributions (left.get role) (right.get role)).sum ∧
        ofBlocks left right ≤ ofBlocks left left ∧ ofBlocks left left = left.roles.length := by
  refine ⟨fun p q hp hq => ?_, fun left right hleft hright => ?_, fun K _ => ⟨?_, ?_⟩⟩
  · exact ⟨(same_ofDistributions hp hq).2.2, (same_ofDistributions_comm hp hq).2.2⟩
  · exact ⟨(same_ofBlocks_comm hleft hright).2.2, (same_ofBlocks hleft hright).2.2⟩
  · intro p q hp hq
    have hp' : ∀ x ∈ p.values, le zero x = true := fun x hx => decide_eq_true (hp x hx)
    have hq' : ∀ x ∈ q.values, le zero x = true := fun x hx => decide_eq_true (hq x hx)
    refine ⟨(ExactField.same_iff.mp (same_ofDistributions hp' hq')).2,
      (ExactField.same_iff.mp (same_ofDistributions_comm hp' hq')).2, fun htotal htotal' => ?_⟩
    have hone := ofDistributions_eq_one_iff hp hq htotal htotal'
    refine ⟨ofDistributions_nonneg hp hq, (ofDistributions_le_total hp hq).trans_eq htotal, hone, ?_⟩
    intro hpos hpos'
    rw [hone]
    exact ⟨Distribution.IsStochastic.ext ⟨hpos, fun _ => htotal⟩ ⟨hpos', fun _ => htotal'⟩,
      fun h token => by rw [h]⟩
  · intro left right hleft hright
    have hleft' : ∀ role, ∀ x ∈ (left.get role).values, le zero x = true :=
      fun role x hx => decide_eq_true ((hleft role).nonneg x hx)
    have hright' : ∀ role, ∀ x ∈ (right.get role).values, le zero x = true :=
      fun role x hx => decide_eq_true ((hright role).nonneg x hx)
    exact ⟨(ExactField.same_iff.mp (same_ofBlocks_comm hleft' hright')).2,
      ofBlocks_eq_sum_roles hleft hright, ofBlocks_le_self hleft hright, ofBlocks_self hleft⟩

namespace Overlap

/-- Two tokens with the same probability. -/
def halves (α : Type) [Scalar α] : Distribution α :=
  ⟨[("add", half), ("mov", half)], List.pairwise_pair.mpr (show "add" < "mov" by decide)⟩

/-- One token only. -/
def single (α : Type) [Scalar α] : Distribution α := ⟨[("mov", one)], List.pairwise_singleton _ _⟩

theorem isNormalized_halves : IsNormalized (halves ℚ) := by
  refine ⟨?_, fun _ => ?_⟩
  · simp [halves, TokenMap.values, half]
  · rw [Distribution.total, ExactField.sum_eq]
    norm_num [halves, TokenMap.values, half]

theorem isNormalized_single : IsNormalized (single ℚ) := by
  refine ⟨?_, fun _ => ?_⟩
  · simp [single, TokenMap.values, one]
  · rw [Distribution.total, ExactField.sum_eq]
    simp [single, TokenMap.values, one]

end Overlap

/-- One token in common, in doubles and in rationals. -/
theorem Overlap.laws_of_halves_of_single :
    eq (ofDistributions (halves Float) (single Float))
      (ofDistributions (single Float) (halves Float)) = true ∧
    ofDistributions (halves ℚ) (single ℚ) = 1 / 2 ∧
    ofDistributions (halves ℚ) (single ℚ) = overlapOfUnion (halves ℚ) (single ℚ) ∧
    ofDistributions (halves ℚ) (single ℚ) ≤ 1 ∧
    ofBlocks ⟨halves ℚ, single ℚ, .empty⟩ ⟨halves ℚ, single ℚ, .empty⟩ = 2 := by
  obtain ⟨hdoubles, -, hexact⟩ := laws_of_nonneg
  obtain ⟨hdistributions, hblocks⟩ := hexact ℚ
  obtain ⟨hunion, -, hnormal⟩ :=
    hdistributions (halves ℚ) (single ℚ) isNormalized_halves.nonneg isNormalized_single.nonneg
  obtain ⟨-, hle, -, -⟩ := hnormal (isNormalized_halves.total_eq rfl) (isNormalized_single.total_eq rfl)
  have hprofile : ∀ role, IsNormalized
      ((⟨halves ℚ, single ℚ, .empty⟩ : Profile ℚ).get role) := by
    intro role
    cases role
    exacts [isNormalized_halves, isNormalized_single, ⟨nofun, nofun⟩]
  obtain ⟨-, -, -, hself⟩ := hblocks _ _ hprofile hprofile
  refine ⟨(hdoubles _ _ ?_ ?_).2, by decide +kernel, hunion, hle, ?_⟩
  · decide +kernel
  · decide +kernel
  · rw [hself]
    norm_num [Profile.roles, Role.all, PerRole.get, halves, single, TokenMap.isEmpty, TokenMap.empty]

end BlockAffinity
