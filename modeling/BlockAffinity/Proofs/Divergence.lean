import Mathlib
import BlockAffinity.Divergence
import BlockAffinity.Proofs.Distribution.Stochastic
import BlockAffinity.Proofs.Profile

/-!
# BlockAffinity.Proofs.Divergence

**The laws of the Jensen–Shannon divergence**, with real numbers and the real logarithm. The two
distributions list their tokens separately and the divergence goes through one list after the other;
as a sum over the tokens of both it has one term for each token (`jensenShannon_eq_sum`), which
depends on the two probabilities of the token only.

* A term is not negative, and zero for equal probabilities only (`tokenDivergence_eq_zero_iff`).
* A term is at most the mean of the two probabilities, and equal to it if and only if one of them is
  zero (`tokenDivergence_eq_mean_iff`).

Both come from one equation: a term is this mean less its part of the binary entropy of the ratio of
the two probabilities (`tokenDivergence_eq`).

So the divergence lies between zero and the mean of the two totals, and equality on either side is
equality for every token. Divergences of blocks are sums of these over the roles.
-/

namespace BlockAffinity

open Scalar

namespace Divergence

/-! ### The divergence as a sum over tokens -/

section tokens

variable {K : Type} [ExactField K] {p q : Distribution K}

/-- What a token with the probabilities `x` and `y` adds to the divergence. -/
def tokenDivergence (x y : K) : K :=
  half * relativeTerm x (half * (x + y)) + half * relativeTerm y (half * (x + y))

theorem tokenDivergence_comm (x y : K) : tokenDivergence x y = tokenDivergence y x := by
  rw [tokenDivergence, tokenDivergence, add_comm x y, add_comm]

@[simp] theorem relativeTerm_zero (m : K) : relativeTerm 0 m = 0 :=
  if_neg (by simp [lt, zero])

theorem foldl_add_eq {ι : Type} (f : ι → K) (start : K) (xs : List ι) :
    xs.foldl (fun total x => total + f x) start = start + (xs.map f).sum := by
  induction xs generalizing start with
  | nil => simp
  | cons x xs ih => rw [List.foldl_cons, ih, List.map_cons, List.sum_cons, add_assoc]

/-- **The divergence is a sum over tokens**, those of the two distributions and any others. -/
theorem jensenShannon_eq_sum {tokens : Finset Token} (hp : p.tokens.toFinset ⊆ tokens)
    (hq : q.tokens.toFinset ⊆ tokens) :
    jensenShannon p q =
      ∑ token ∈ tokens, tokenDivergence (p.probability token) (q.probability token) := by
  have hleft := Distribution.sum_entries (d := p)
    (f := fun token x => half * relativeTerm x (half * (x + q.probability token)))
    (fun _ => by rw [relativeTerm_zero, mul_zero]) hp
  have hright := Distribution.sum_entries (d := q)
    (f := fun token y => half * relativeTerm y (half * (p.probability token + y)))
    (fun _ => by rw [relativeTerm_zero, mul_zero]) hq
  rw [jensenShannon, otherHalfFrom, halfFrom, foldl_add_eq, foldl_add_eq, hleft, hright,
    show (zero : K) = 0 from rfl, zero_add, ← Finset.sum_add_distrib]
  rfl

end tokens

/-! ### One token -/

section token

variable {x y total : ℝ}

theorem half_mul (z : ℝ) : (half : ℝ) * z = z / 2 := by
  show 1 / 2 * z = z / 2
  ring

/-- A probability against half a total falls short of itself by its part of the entropy. -/
theorem relativeTerm_half (hx : 0 ≤ x) (htotal : 0 < total) :
    relativeTerm x (total / 2) = x - total * Real.negMulLog (x / total) / Real.log 2 := by
  have hlog : Real.log 2 ≠ 0 := (Real.log_pos one_lt_two).ne'
  rcases hx.eq_or_lt with rfl | hpos
  · rw [relativeTerm_zero, zero_div, Real.negMulLog_zero, mul_zero, zero_div, sub_zero]
  · have hdouble : x / (total / 2) = 2 * (x / total) := by field_simp
    have hterm : relativeTerm x (total / 2) = x * (Real.log (x / (total / 2)) / Real.log 2) :=
      if_pos (decide_eq_true hpos)
    rw [hterm, hdouble, Real.log_mul two_ne_zero (div_pos hpos htotal).ne', Real.negMulLog]
    field_simp
    ring

/-- **What a token adds** is the mean of its probabilities, less the entropy of their ratio. -/
theorem tokenDivergence_eq (hx : 0 ≤ x) (hy : 0 ≤ y) :
    tokenDivergence x y =
      (x + y) / 2 * (1 - Real.binEntropy (x / (x + y)) / Real.log 2) := by
  rw [tokenDivergence, half_mul, half_mul, half_mul]
  rcases (add_nonneg hx hy).eq_or_lt with hzero | hpos
  · obtain ⟨rfl, rfl⟩ := (add_eq_zero_iff_of_nonneg hx hy).mp hzero.symm
    rw [relativeTerm_zero, add_zero, zero_div, add_zero, zero_mul]
  · have hother : 1 - x / (x + y) = y / (x + y) := by
      rw [one_sub_div hpos.ne', add_sub_cancel_left]
    rw [relativeTerm_half hx hpos, relativeTerm_half hy hpos,
      Real.binEntropy_eq_negMulLog_add_negMulLog_one_sub, hother]
    ring

theorem tokenDivergence_nonneg (hx : 0 ≤ x) (hy : 0 ≤ y) : 0 ≤ tokenDivergence x y := by
  rw [tokenDivergence_eq hx hy]
  refine mul_nonneg (div_nonneg (add_nonneg hx hy) zero_le_two) (sub_nonneg.mpr ?_)
  exact (div_le_one (Real.log_pos one_lt_two)).mpr Real.binEntropy_le_log_two

/-- **Only equal probabilities add nothing.** -/
theorem tokenDivergence_eq_zero_iff (hx : 0 ≤ x) (hy : 0 ≤ y) :
    tokenDivergence x y = 0 ↔ x = y := by
  have hlog : Real.log 2 ≠ 0 := (Real.log_pos one_lt_two).ne'
  rw [tokenDivergence_eq hx hy]
  rcases (add_nonneg hx hy).eq_or_lt with hzero | hpos
  · obtain ⟨rfl, rfl⟩ := (add_eq_zero_iff_of_nonneg hx hy).mp hzero.symm
    simp
  · rw [mul_eq_zero, or_iff_right (half_pos hpos).ne', sub_eq_zero, eq_comm (a := (1 : ℝ)),
      div_eq_one_iff_eq hlog, Real.binEntropy_eq_log_two, div_eq_iff hpos.ne']
    constructor <;> intro h <;> linarith

theorem tokenDivergence_le_mean (hx : 0 ≤ x) (hy : 0 ≤ y) : tokenDivergence x y ≤ (x + y) / 2 := by
  rw [tokenDivergence_eq hx hy]
  have hratio : x / (x + y) ≤ 1 := div_le_one_of_le₀ (by linarith) (add_nonneg hx hy)
  have hentropy := Real.binEntropy_nonneg (div_nonneg hx (add_nonneg hx hy)) hratio
  refine mul_le_of_le_one_right (div_nonneg (add_nonneg hx hy) zero_le_two) (sub_le_self _ ?_)
  exact div_nonneg hentropy (Real.log_pos one_lt_two).le

/-- **A token that both distributions list adds less than the mean** of its probabilities; one that
only one of them lists adds just this mean. -/
theorem tokenDivergence_eq_mean_iff (hx : 0 ≤ x) (hy : 0 ≤ y) :
    tokenDivergence x y = (x + y) / 2 ↔ x = 0 ∨ y = 0 := by
  have hlog : Real.log 2 ≠ 0 := (Real.log_pos one_lt_two).ne'
  rw [tokenDivergence_eq hx hy]
  rcases (add_nonneg hx hy).eq_or_lt with hzero | hpos
  · obtain ⟨rfl, rfl⟩ := (add_eq_zero_iff_of_nonneg hx hy).mp hzero.symm
    simp
  · rw [mul_eq_left₀ (half_pos hpos).ne', sub_eq_self, div_eq_zero_iff, or_iff_left hlog,
      Real.binEntropy_eq_zero, div_eq_zero_iff, or_iff_left hpos.ne', div_eq_one_iff_eq hpos.ne',
      left_eq_add]

end token

/-! ### Two distributions -/

section distributions

variable {p q : Distribution ℝ}

theorem jensenShannon_comm (p q : Distribution ℝ) : jensenShannon p q = jensenShannon q p := by
  rw [jensenShannon_eq_sum Finset.subset_union_left Finset.subset_union_right,
    jensenShannon_eq_sum Finset.subset_union_right Finset.subset_union_left]
  exact Finset.sum_congr rfl fun token _ => tokenDivergence_comm _ _

theorem jensenShannon_nonneg (hp : p.IsStochastic) (hq : q.IsStochastic) :
    0 ≤ jensenShannon p q := by
  rw [jensenShannon_eq_sum Finset.subset_union_left Finset.subset_union_right]
  exact Finset.sum_nonneg fun token _ =>
    tokenDivergence_nonneg (hp.probability_nonneg token) (hq.probability_nonneg token)

/-- **The divergence is zero for equal distributions only.** -/
theorem jensenShannon_eq_zero_iff (hp : p.IsStochastic) (hq : q.IsStochastic) :
    jensenShannon p q = 0 ↔ p = q := by
  rw [jensenShannon_eq_sum Finset.subset_union_left Finset.subset_union_right,
    Finset.sum_eq_zero_iff_of_nonneg fun token _ =>
      tokenDivergence_nonneg (hp.probability_nonneg token) (hq.probability_nonneg token)]
  simp only [tokenDivergence_eq_zero_iff (hp.probability_nonneg _) (hq.probability_nonneg _)]
  constructor
  · intro h
    refine hp.ext hq fun token => ?_
    by_cases htoken : token ∈ p.tokens.toFinset ∪ q.tokens.toFinset
    · exact h token htoken
    · rw [Finset.mem_union, not_or, List.mem_toFinset, List.mem_toFinset] at htoken
      rw [Distribution.probability_of_notMem htoken.1, Distribution.probability_of_notMem htoken.2]
  · rintro rfl token -
    rfl

/-- The mean of the totals as a sum over tokens. -/
theorem mean_total_eq_sum (p q : Distribution ℝ) : (p.total + q.total) / 2 =
    ∑ token ∈ p.tokens.toFinset ∪ q.tokens.toFinset,
      (p.probability token + q.probability token) / 2 := by
  rw [← Finset.sum_div, Finset.sum_add_distrib, ← Distribution.total_eq_sum Finset.subset_union_left,
    ← Distribution.total_eq_sum Finset.subset_union_right]

theorem jensenShannon_le_mean (hp : p.IsStochastic) (hq : q.IsStochastic) :
    jensenShannon p q ≤ (p.total + q.total) / 2 := by
  rw [jensenShannon_eq_sum Finset.subset_union_left Finset.subset_union_right, mean_total_eq_sum]
  exact Finset.sum_le_sum fun token _ =>
    tokenDivergence_le_mean (hp.probability_nonneg token) (hq.probability_nonneg token)

/-- **The divergence is the mean of the totals for disjoint tokens only.** -/
theorem jensenShannon_eq_mean_iff (hp : p.IsStochastic) (hq : q.IsStochastic) :
    jensenShannon p q = (p.total + q.total) / 2 ↔ p.tokens.Disjoint q.tokens := by
  rw [jensenShannon_eq_sum Finset.subset_union_left Finset.subset_union_right, mean_total_eq_sum,
    Finset.sum_eq_sum_iff_of_le fun token _ =>
      tokenDivergence_le_mean (hp.probability_nonneg token) (hq.probability_nonneg token)]
  simp only [tokenDivergence_eq_mean_iff (hp.probability_nonneg _) (hq.probability_nonneg _),
    hp.probability_eq_zero_iff, hq.probability_eq_zero_iff]
  constructor
  · intro h token hp' hq'
    rcases h token (Finset.mem_union_left _ (List.mem_toFinset.mpr hp')) with hnot | hnot
    · exact hnot hp'
    · exact hnot hq'
  · intro hdisjoint token _
    by_cases hp' : token ∈ p.tokens
    · exact .inr fun hq' => hdisjoint hp' hq'
    · exact .inl hp'

theorem jensenShannon_le_one (hp : p.IsStochastic) (hq : q.IsStochastic) : jensenShannon p q ≤ 1 := by
  refine (jensenShannon_le_mean hp hq).trans ?_
  linarith [hp.total_le_one, hq.total_le_one]

/-- **The divergence is one** for two distributions that both list tokens, but none in common. -/
theorem jensenShannon_eq_one_iff (hp : p.IsStochastic) (hq : q.IsStochastic) :
    jensenShannon p q = 1 ↔ p.isEmpty = false ∧ q.isEmpty = false ∧ p.tokens.Disjoint q.tokens := by
  rw [← jensenShannon_eq_mean_iff hp hq]
  have hmean := jensenShannon_le_mean hp hq
  constructor
  · intro hone
    -- an empty distribution has the total zero, which leaves at most one half
    have htotals : 2 ≤ p.total + q.total := by linarith
    cases hempty : p.isEmpty with
    | true => linarith [Distribution.total_of_isEmpty hempty, hq.total_le_one]
    | false =>
        cases hempty' : q.isEmpty with
        | true => linarith [Distribution.total_of_isEmpty hempty', hp.total_le_one]
        | false => exact ⟨rfl, rfl, by linarith [hp.total_le_one, hq.total_le_one]⟩
  · rintro ⟨hempty, hempty', heq⟩
    rw [heq, hp.total_eq hempty, hq.total_eq hempty']
    norm_num

/-- **The divergence is one half** if one of the distributions is empty. -/
theorem jensenShannon_of_isEmpty (hp : p.IsStochastic) (hq : q.IsStochastic)
    (h : p.isEmpty = true) (h' : q.isEmpty = false) : jensenShannon p q = 1 / 2 := by
  have hdisjoint : p.tokens.Disjoint q.tokens := by
    rw [TokenMap.tokens_of_isEmpty h]
    exact List.disjoint_nil_left _
  rw [(jensenShannon_eq_mean_iff hp hq).mpr hdisjoint, Distribution.total_of_isEmpty h,
    hq.total_eq h', zero_add]

end distributions

/-! ### Two blocks -/

section blocks

variable {left right : Profile ℝ}

/-- A value from zero to one is not changed by the guard. -/
theorem guard_eq_self {value : ℝ} (hnonneg : 0 ≤ value) (hle : value ≤ 1) : guard value = value := by
  have hlow : lt value zero = false := decide_eq_false (not_lt.mpr hnonneg)
  have hhigh : lt one value = false := decide_eq_false (not_lt.mpr hle)
  simp only [guard, clamp, hlow, hhigh, isFinite, if_true, Bool.false_eq_true, if_false]

theorem roleDivergences_comm (left right : Profile ℝ) :
    roleDivergences left right = roleDivergences right left := by
  simp only [roleDivergences, Bool.and_comm, jensenShannon_comm]

theorem ofBlocks_comm (left right : Profile ℝ) : ofBlocks left right = ofBlocks right left := by
  rw [ofBlocks, ofBlocks, roleDivergences_comm]

theorem mem_roleDivergences_iff {value : ℝ} :
    value ∈ roleDivergences left right ↔
      ∃ role, ((left.get role).isEmpty = false ∨ (right.get role).isEmpty = false) ∧
        jensenShannon (left.get role) (right.get role) = value := by
  simp only [roleDivergences, List.mem_map, List.mem_filter, Role.mem_all, true_and,
    Bool.not_eq_true', Bool.and_eq_false_iff]

/-- The divergences of the roles that one of the two blocks uses. -/
theorem roleDivergences_eq (left right : Profile ℝ) :
    roleDivergences left right =
      (Role.all.filter fun role => role ∈ left.roles ∨ role ∈ right.roles).map fun role =>
        jensenShannon (left.get role) (right.get role) := by
  refine congrArg _ (List.filter_congr fun role hrole => ?_)
  simp [Profile.roles, hrole, Bool.not_and]

theorem degenerateCount_eq_zero (left right : Profile ℝ) : degenerateCount left right = 0 := by
  rw [degenerateCount, List.filter_eq_nil_iff.mpr fun _ _ => by simp [isDegenerate, isFinite],
    List.length_nil]

variable (hleft : ∀ role, (left.get role).IsStochastic)
  (hright : ∀ role, (right.get role).IsStochastic)
include hleft hright

theorem roleDivergence_bounds {value : ℝ} (h : value ∈ roleDivergences left right) :
    0 ≤ value ∧ value ≤ 1 := by
  obtain ⟨role, -, rfl⟩ := mem_roleDivergences_iff.mp h
  exact ⟨jensenShannon_nonneg (hleft role) (hright role),
    jensenShannon_le_one (hleft role) (hright role)⟩

/-- **The guard never changes a divergence.** -/
theorem map_guard_roleDivergences :
    (roleDivergences left right).map guard = roleDivergences left right := by
  refine (List.map_congr_left fun value hvalue => ?_).trans (List.map_id _)
  obtain ⟨hnonneg, hle⟩ := roleDivergence_bounds hleft hright hvalue
  exact guard_eq_self hnonneg hle

theorem ofBlocks_eq_sum : ofBlocks left right = (roleDivergences left right).sum := by
  rw [ofBlocks, map_guard_roleDivergences hleft hright, ExactField.sum_eq]

theorem ofBlocks_bounds : 0 ≤ ofBlocks left right ∧ ofBlocks left right ≤ 3 := by
  rw [ofBlocks_eq_sum hleft hright]
  refine ⟨List.sum_nonneg fun value hvalue => (roleDivergence_bounds hleft hright hvalue).1, ?_⟩
  have hlength : (roleDivergences left right).length ≤ 3 := by
    rw [roleDivergences, List.length_map]
    exact List.length_filter_le _ Role.all
  calc (roleDivergences left right).sum ≤ (roleDivergences left right).length • (1 : ℝ) :=
        List.sum_le_card_nsmul _ _ fun value hvalue =>
          (roleDivergence_bounds hleft hright hvalue).2
    _ ≤ 3 := by
        rw [nsmul_one]
        exact_mod_cast hlength

/-- **The divergence of two blocks is zero for equal profiles only.** -/
theorem ofBlocks_eq_zero_iff : ofBlocks left right = 0 ↔ left = right := by
  rw [ofBlocks_eq_sum hleft hright]
  constructor
  · intro hzero
    refine PerRole.ext_get fun role => ?_
    cases hused : (left.get role).isEmpty && (right.get role).isEmpty with
    | true =>
        -- a role that neither uses
        obtain ⟨hempty, hempty'⟩ := Bool.and_eq_true_iff.mp hused
        exact TokenMap.ext_entries
          ((List.isEmpty_iff.mp hempty).trans (List.isEmpty_iff.mp hempty').symm)
    | false =>
        refine (jensenShannon_eq_zero_iff (hleft role) (hright role)).mp ?_
        exact List.all_zero_of_le_zero_le_of_sum_eq_zero
          (fun value hvalue => (roleDivergence_bounds hleft hright hvalue).1) hzero
          (mem_roleDivergences_iff.mpr ⟨role, Bool.and_eq_false_iff.mp hused, rfl⟩)
  · rintro rfl
    refine List.sum_eq_zero fun value hvalue => ?_
    obtain ⟨role, -, rfl⟩ := mem_roleDivergences_iff.mp hvalue
    exact (jensenShannon_eq_zero_iff (hleft role) (hright role)).mpr rfl

end blocks

end Divergence

/-- **The laws of the divergence** over the reals. It is symmetric and lies between zero and one; it is
zero for equal distributions only, one for distributions with tokens but none in common, and one half
if just one is empty. It divides by positive means only. For two blocks it is symmetric, the sum over
the roles that at least one of them uses, and zero for equal profiles only, and the guard changes no
value. -/
theorem Divergence.laws_of_isStochastic :
    (∀ p q : Distribution ℝ, p.IsStochastic → q.IsStochastic →
      jensenShannon p q = jensenShannon q p ∧ 0 ≤ jensenShannon p q ∧ jensenShannon p q ≤ 1 ∧
      (jensenShannon p q = 0 ↔ p = q) ∧
      (jensenShannon p q = 1 ↔
        p.isEmpty = false ∧ q.isEmpty = false ∧ p.tokens.Disjoint q.tokens) ∧
      (p.isEmpty ≠ q.isEmpty → jensenShannon p q = 1 / 2) ∧
      ∀ token x, p.get? token = some x → 0 < x ∧ 0 < half * (x + q.probability token)) ∧
    ∀ left right : Profile ℝ, (∀ role, (left.get role).IsStochastic) →
      (∀ role, (right.get role).IsStochastic) →
      ofBlocks left right = ofBlocks right left ∧
      0 ≤ ofBlocks left right ∧ ofBlocks left right ≤ 3 ∧
      ofBlocks left right = ((Role.all.filter fun role => role ∈ left.roles ∨ role ∈ right.roles).map
        fun role => jensenShannon (left.get role) (right.get role)).sum ∧
      (∀ value ∈ roleDivergences left right, guard value = value) ∧
      degenerateCount left right = 0 ∧
      (ofBlocks left right = 0 ↔ left = right) := by
  constructor
  · intro p q hp hq
    refine ⟨jensenShannon_comm p q, jensenShannon_nonneg hp hq, jensenShannon_le_one hp hq,
      jensenShannon_eq_zero_iff hp hq, jensenShannon_eq_one_iff hp hq, ?_, ?_⟩
    · intro hne
      cases hempty : p.isEmpty with
      | true => exact jensenShannon_of_isEmpty hp hq hempty (by simpa [hempty] using hne)
      | false =>
          rw [jensenShannon_comm]
          exact jensenShannon_of_isEmpty hq hp (by simpa [hempty] using hne) hempty
    · intro token x hx
      have hpos := (hp.get?_eq_some_iff.mp hx).2
      rw [half_mul]
      exact ⟨hpos, half_pos (add_pos_of_pos_of_nonneg hpos (hq.probability_nonneg token))⟩
  · intro left right hleft hright
    obtain ⟨hnonneg, hle⟩ := ofBlocks_bounds hleft hright
    refine ⟨ofBlocks_comm left right, hnonneg, hle, ?_, ?_, degenerateCount_eq_zero left right,
      ofBlocks_eq_zero_iff hleft hright⟩
    · rw [ofBlocks_eq_sum hleft hright, roleDivergences_eq]
    · intro value hvalue
      obtain ⟨hnonneg, hle⟩ := roleDivergence_bounds hleft hright hvalue
      exact guard_eq_self hnonneg hle

namespace Divergence

/-- Two tokens with the same probability. -/
noncomputable def addOrMov : Distribution ℝ :=
  ⟨[("add", half), ("mov", half)], List.pairwise_pair.mpr (by decide)⟩

/-- One token only. -/
noncomputable def onlyNop : Distribution ℝ := ⟨[("nop", 1)], List.pairwise_singleton _ _⟩

theorem isStochastic_addOrMov : addOrMov.IsStochastic := by
  refine ⟨?_, fun _ => ?_⟩
  · simp [addOrMov, TokenMap.values, half]
  · rw [Distribution.total, ExactField.sum_eq]
    norm_num [addOrMov, TokenMap.values, half]

theorem isStochastic_onlyNop : onlyNop.IsStochastic := by
  refine ⟨?_, fun _ => ?_⟩
  · simp [onlyNop, TokenMap.values]
  · rw [Distribution.total, ExactField.sum_eq]
    norm_num [onlyNop, TokenMap.values]

end Divergence

/-- Two blocks with different instructions, and a left operand in one of them only. -/
theorem Divergence.laws_of_addOrMov_of_onlyNop :
    addOrMov.IsStochastic ∧ onlyNop.IsStochastic ∧ jensenShannon addOrMov onlyNop = 1 ∧
    jensenShannon .empty addOrMov = 1 / 2 ∧
    ofBlocks ⟨addOrMov, .empty, .empty⟩ ⟨onlyNop, addOrMov, .empty⟩ = 3 / 2 := by
  obtain ⟨hdistributions, hblocks⟩ := laws_of_isStochastic
  have hempty := (Distribution.isNormal_empty (K := ℝ)).isStochastic
  obtain ⟨-, -, -, -, hone, -, -⟩ :=
    hdistributions addOrMov onlyNop isStochastic_addOrMov isStochastic_onlyNop
  obtain ⟨-, -, -, -, -, hhalf, -⟩ := hdistributions .empty addOrMov hempty isStochastic_addOrMov
  have hone := hone.mpr ⟨rfl, rfl, by simp [addOrMov, onlyNop, TokenMap.tokens]⟩
  have hhalf := hhalf (by simp [addOrMov, TokenMap.isEmpty, TokenMap.empty])
  obtain ⟨-, -, -, hsum, -, -, -⟩ := hblocks ⟨addOrMov, .empty, .empty⟩ ⟨onlyNop, addOrMov, .empty⟩
    (by
      intro role
      cases role
      exacts [isStochastic_addOrMov, hempty, hempty])
    (by
      intro role
      cases role
      exacts [isStochastic_onlyNop, isStochastic_addOrMov, hempty])
  refine ⟨isStochastic_addOrMov, isStochastic_onlyNop, hone, hhalf, ?_⟩
  have hroles : roleDivergences ⟨addOrMov, .empty, .empty⟩ ⟨onlyNop, addOrMov, .empty⟩ =
      [jensenShannon addOrMov onlyNop, jensenShannon .empty addOrMov] := rfl
  rw [hsum, ← roleDivergences_eq, hroles, hone, hhalf]
  norm_num

end BlockAffinity
