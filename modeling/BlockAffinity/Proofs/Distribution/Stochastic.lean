import Mathlib
import BlockAffinity.Proofs.Distribution.Normal

/-!
# BlockAffinity.Proofs.Distribution.Stochastic

**Distributions as functions of the token**, in exact arithmetic. A distribution whose probabilities
are positive and add up to one, or that is empty, is told by the probabilities it gives to all tokens
(`IsStochastic.ext`), and a sum over its entries is one over any tokens that include its own
(`sum_entries`). Two distributions can so be summed over the same tokens.
-/

namespace BlockAffinity

open Scalar

namespace Distribution

section

variable {α : Type} [Scalar α] {d : Distribution α} {token : Token}

theorem probability_of_get? {x : α} (h : d.get? token = some x) : d.probability token = x := by
  rw [probability, h, Option.getD_some]

theorem probability_eq_zero (h : token ∉ d.tokens) : d.probability token = zero := by
  cases hget : d.get? token with
  | none => rw [probability, hget, Option.getD_none]
  | some x => exact absurd (TokenMap.mem_tokens_iff.mpr ⟨x, hget⟩) h

end

variable {K : Type} [ExactField K] {d : Distribution K} {token : Token}

/-- Positive probabilities that add up to one, if there are any. -/
structure IsStochastic (d : Distribution K) : Prop where
  positive : ∀ x ∈ d.values, 0 < x
  total_eq : d.isEmpty = false → d.total = 1

theorem IsNormal.isStochastic (h : d.IsNormal) : d.IsStochastic := ⟨h.positive, h.total_eq⟩

theorem probability_of_notMem (h : token ∉ d.tokens) : d.probability token = 0 :=
  probability_eq_zero h

/-- What is listed has a positive probability. -/
theorem IsStochastic.get?_eq_some_iff (h : d.IsStochastic) {x : K} :
    d.get? token = some x ↔ d.probability token = x ∧ 0 < x := by
  constructor
  · intro hget
    exact ⟨probability_of_get? hget, h.positive x (TokenMap.mem_values_iff.mpr ⟨token, hget⟩)⟩
  · rintro ⟨rfl, hpos⟩
    cases hget : d.get? token with
    | none =>
        rw [probability, hget] at hpos
        exact absurd hpos (lt_irrefl _)
    | some x => rw [probability_of_get? hget]

theorem IsStochastic.mem_tokens_iff (h : d.IsStochastic) :
    token ∈ d.tokens ↔ 0 < d.probability token := by
  rw [TokenMap.mem_tokens_iff]
  simp only [h.get?_eq_some_iff, exists_eq_left']

theorem IsStochastic.probability_nonneg (h : d.IsStochastic) (token : Token) :
    0 ≤ d.probability token := by
  by_cases htoken : token ∈ d.tokens
  · exact (h.mem_tokens_iff.mp htoken).le
  · exact (probability_of_notMem htoken).ge

theorem IsStochastic.probability_eq_zero_iff (h : d.IsStochastic) :
    d.probability token = 0 ↔ token ∉ d.tokens := by
  rw [h.mem_tokens_iff, not_lt]
  exact ⟨le_of_eq, fun hle => le_antisymm hle (h.probability_nonneg token)⟩

/-- Probabilities tell a distribution. -/
theorem IsStochastic.ext {p q : Distribution K} (hp : p.IsStochastic) (hq : q.IsStochastic)
    (h : ∀ token, p.probability token = q.probability token) : p = q := by
  refine TokenMap.ext_get? fun token => Option.ext fun x => ?_
  rw [hp.get?_eq_some_iff, hq.get?_eq_some_iff, h]

/-- A sum over the entries as one over any tokens among which are those of the distribution. -/
theorem sum_entries {f : Token → K → K} (hf : ∀ token, f token 0 = 0) {tokens : Finset Token}
    (h : d.tokens.toFinset ⊆ tokens) :
    (d.entries.map fun entry => f entry.1 entry.2).sum =
      ∑ token ∈ tokens, f token (d.probability token) := by
  have houtside : ∀ token ∈ tokens, token ∉ d.tokens.toFinset →
      f token (d.probability token) = 0 := by
    intro token _ hnot
    rw [probability_of_notMem (mt List.mem_toFinset.mpr hnot), hf]
  rw [← Finset.sum_subset h houtside, List.sum_toFinset _ d.nodup_tokens, TokenMap.tokens,
    List.map_map]
  refine congrArg List.sum (List.map_congr_left fun entry hentry => ?_)
  rw [Function.comp_apply, probability_of_get? (TokenMap.mem_entries_iff.mp hentry)]

theorem total_of_isEmpty (h : d.isEmpty = true) : d.total = 0 := by
  rw [total, TokenMap.values, List.isEmpty_iff.mp h]
  rfl

theorem IsStochastic.total_le_one (h : d.IsStochastic) : d.total ≤ 1 := by
  cases hempty : d.isEmpty with
  | true => exact (total_of_isEmpty hempty).trans_le zero_le_one
  | false => exact (h.total_eq hempty).le

theorem total_eq_sum {tokens : Finset Token} (h : d.tokens.toFinset ⊆ tokens) :
    d.total = ∑ token ∈ tokens, d.probability token := by
  rw [total, ExactField.sum_eq]
  exact sum_entries (f := fun _ x => x) (fun _ => rfl) h

end Distribution

end BlockAffinity
