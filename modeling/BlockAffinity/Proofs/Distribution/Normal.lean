import Mathlib
import BlockAffinity.Proofs.Distribution
import BlockAffinity.Proofs.Ingest.Tables
import BlockAffinity.Proofs.Number.Exact

/-!
# BlockAffinity.Proofs.Distribution.Normal

**Normal distributions**, in exact arithmetic: the tokens are trimmed, the probabilities are positive,
and they add up to one unless there are none (`Distribution.IsNormal`). Counting gives such
distributions, so does dividing weights by their total, and the entropy filter keeps them so, whatever
the logarithm is.
-/

namespace BlockAffinity

variable {K : Type} [ExactField K]

theorem ExactField.sum_eq (xs : List K) : Scalar.sum xs = xs.sum := List.sum_eq_foldl.symm

theorem ExactField.sum_map_div (xs : List K) (t : K) : (xs.map fun x => x / t).sum = xs.sum / t := by
  induction xs with
  | nil => simp
  | cons x xs ih => rw [List.map_cons, List.sum_cons, List.sum_cons, ih, add_div]

namespace Distribution

open Scalar

/-- Trimmed tokens with positive probabilities that add up to one, if there are any. -/
structure IsNormal (d : Distribution K) : Prop where
  trimmed : ∀ token ∈ d.tokens, Text.IsTrimmed token
  positive : ∀ p ∈ d.values, 0 < p
  total_eq : d.isEmpty = false → d.total = 1

theorem isNormal_empty : IsNormal (.empty : Distribution K) :=
  ⟨by simp [TokenMap.empty, TokenMap.tokens], by simp [TokenMap.empty, TokenMap.values],
    fun h => absurd h (by simp [TokenMap.empty, TokenMap.isEmpty])⟩

/-- No probability is above one. -/
theorem IsNormal.le_one {d : Distribution K} (h : d.IsNormal) {p : K} (hp : p ∈ d.values) : p ≤ 1 := by
  have htotal := h.total_eq (TokenMap.isEmpty_eq_false_iff.mpr (List.ne_nil_of_mem hp))
  rw [total, ExactField.sum_eq] at htotal
  rw [← htotal]
  exact List.single_le_sum (fun q hq => (h.positive q hq).le) p hp

/-! ### Weights -/

theorem of_get?_accumulate {weights : List (Token × K)} {token : Token} {value : K}
    (h : (accumulate weights).get? token = some value) :
    0 < value ∧ token ∈ weights.map Prod.fst := by
  induction weights using List.reverseRecOn generalizing token value with
  | nil => exact absurd h (by simp [accumulate])
  | append_singleton weights entry ih =>
      rw [List.map_append, List.mem_append]
      rw [accumulate_append, addWeight] at h
      split at h
      · rename_i hweight
        have hweight : 0 < entry.2 := of_decide_eq_true hweight
        rw [TokenMap.get?_alter] at h
        split at h
        · rename_i htoken
          obtain rfl := Option.some.inj h
          refine ⟨?_, .inr (by simp [htoken])⟩
          -- what is added to is nothing or positive
          cases hold : (accumulate weights).get? entry.1 with
          | none =>
              show (0 : K) < 0 + entry.2
              rwa [zero_add]
          | some old =>
              show 0 < old + entry.2
              exact add_pos (ih hold).1 hweight
        · exact ⟨(ih h).1, .inl (ih h).2⟩
      · exact ⟨(ih h).1, .inl (ih h).2⟩

theorem total_map_div (d : Distribution K) (t : K) :
    total (d.map fun p => p / t) = d.total / t := by
  rw [total, total, ExactField.sum_eq, ExactField.sum_eq, TokenMap.values_map, ExactField.sum_map_div]

/-- **Positive weights divided by their total** are normal. -/
theorem isNormal_normalize {weights : TokenMap K} (htrimmed : ∀ token ∈ weights.tokens,
    Text.IsTrimmed token) (hpositive : ∀ w ∈ weights.values, 0 < w) : IsNormal (normalize weights) := by
  unfold normalize
  dsimp only
  split
  · exact isNormal_empty
  · rename_i hbad
    rw [Bool.or_eq_true, not_or] at hbad
    have htotal : 0 < total weights := not_le.mp fun hle => hbad.1 (decide_eq_true hle)
    refine ⟨by rwa [TokenMap.tokens_map], fun p hp => ?_, fun _ => ?_⟩
    · rw [TokenMap.values_map] at hp
      obtain ⟨w, hw, rfl⟩ := List.mem_map.mp hp
      exact div_pos (hpositive w hw) htotal
    · exact (total_map_div weights _).trans (div_self htotal.ne')

theorem isNormal_ofWeights {weights : List (Token × K)}
    (htrimmed : ∀ token ∈ weights.map Prod.fst, Text.IsTrimmed token) : IsNormal (ofWeights weights) := by
  refine isNormal_normalize (fun token htoken => ?_) fun w hw => ?_
  · obtain ⟨⟨_, value⟩, hentry, rfl⟩ := List.mem_map.mp htoken
    exact htrimmed _ (of_get?_accumulate (TokenMap.mem_entries_iff.mp hentry)).2
  · obtain ⟨token, hw⟩ := TokenMap.mem_values_iff.mp hw
    exact (of_get?_accumulate hw).1

theorem total_pos {d : Distribution K} (h : ∀ p ∈ d.values, 0 < p) (hne : d.values ≠ []) :
    0 < d.total := by
  rw [total, ExactField.sum_eq]
  exact List.sum_pos _ h hne

/-- **Positive weights are divided by their total**, and nothing else happens to them. -/
theorem ofWeights_entries_of_pos {d : Distribution K} (h : ∀ p ∈ d.values, 0 < p) :
    ofWeights d.entries = d.map fun p => p / d.total := by
  have haccumulated : accumulate d.entries = d := by
    rw [accumulate_entries fun p hp => decide_eq_true (h p hp)]
    refine TokenMap.ext_entries ?_
    show d.entries.map (fun entry => (entry.1, (0 : K) + entry.2)) = d.entries
    simp only [zero_add, List.map_id']
  rw [ofWeights, haccumulated, normalize]
  split
  · rename_i hbad
    -- a token would make the total positive
    have hnone : d.values = [] := by
      by_contra hne
      rw [Bool.or_eq_true] at hbad
      rcases hbad with hle | hinfinite
      · exact (total_pos h hne).not_ge (of_decide_eq_true hle)
      · cases hinfinite
    rw [TokenMap.eq_empty_of_values hnone]
    rfl
  · rfl

/-- Dividing by one changes nothing. -/
theorem map_div_of_eq_one {d : Distribution K} {t : K} (h : t = 1) : d.map (fun p => p / t) = d := by
  refine TokenMap.ext_entries ?_
  show d.entries.map (fun entry => (entry.1, entry.2 / t)) = d.entries
  simp only [h, div_one, List.map_id']

/-- **Dividing a normal distribution by its total** leaves it as it is. -/
theorem ofWeights_entries {d : Distribution K} (h : d.IsNormal) : ofWeights d.entries = d := by
  rw [ofWeights_entries_of_pos h.positive]
  cases hempty : d.isEmpty with
  | true =>
      have hnone : d = .empty := TokenMap.ext_entries (List.isEmpty_iff.mp hempty)
      rw [hnone]
      rfl
  | false => exact map_div_of_eq_one (h.total_eq hempty)

/-! ### Counts -/

theorem values_ofCounts {counts : TokenMap Nat} (h : counts.values.sum ≠ 0) :
    (ofCounts counts : Distribution K).values =
      ((counts.values.filter fun count => 0 < count).map Nat.cast).map
        fun count : K => count / (counts.values.sum : K) := by
  rw [ofCounts_eq, if_neg h]
  rw [TokenMap.values_map]
  simp only [TokenMap.values, TokenMap.filter, List.map_map, List.filter_map]
  rfl

/-- Relative frequencies add up to one. -/
theorem sum_values_ofCounts {counts : TokenMap Nat} (h : counts.values.sum ≠ 0) :
    (ofCounts counts : Distribution K).values.sum = 1 := by
  have hcast (xs : List Nat) :
      ((xs.filter fun count => 0 < count).map (Nat.cast : Nat → K)).sum = (xs.sum : K) := by
    induction xs with
    | nil => simp
    | cons x xs ih =>
        rw [List.sum_cons, Nat.cast_add, ← ih]
        rcases Nat.eq_zero_or_pos x with rfl | hx
        · simp
        · simp [hx]
  rw [values_ofCounts h, ExactField.sum_map_div, hcast, div_self (Nat.cast_ne_zero.mpr h)]

theorem isEmpty_ofCounts {counts : TokenMap Nat} (h : 0 < counts.values.sum) :
    (ofCounts counts : Distribution K).isEmpty = false := by
  have hsum := sum_values_ofCounts (K := K) h.ne'
  refine TokenMap.isEmpty_eq_false_iff.mpr fun hnone => ?_
  rw [hnone, List.sum_nil] at hsum
  exact zero_ne_one hsum

/-- **Relative frequencies** are normal. -/
theorem isNormal_ofCounts {counts : TokenMap Nat}
    (htrimmed : ∀ token ∈ counts.tokens, Text.IsTrimmed token) :
    IsNormal (ofCounts counts : Distribution K) := by
  by_cases hzero : counts.values.sum = 0
  · rw [ofCounts_eq, if_pos hzero]
    exact isNormal_empty
  refine ⟨fun token htoken => htrimmed token ?_, fun p hp => ?_, fun _ => ?_⟩
  · rw [ofCounts_eq, if_neg hzero, TokenMap.tokens_map] at htoken
    exact (List.filter_sublist.map Prod.fst).subset htoken
  · rw [values_ofCounts hzero] at hp
    simp only [List.mem_map, List.mem_filter, decide_eq_true_eq] at hp
    obtain ⟨_, ⟨count, ⟨-, hcount⟩, rfl⟩, rfl⟩ := hp
    exact div_pos (Nat.cast_pos.mpr hcount) (Nat.cast_pos.mpr (Nat.pos_of_ne_zero hzero))
  · rw [total, ExactField.sum_eq, sum_values_ofCounts hzero]

end Distribution

/-! ### The entropy filter -/

/-- What the entropy filter keeps is normal, with any function for the logarithm. -/
theorem Entropy.isNormal_filterDistribution {d : Distribution K} (h : d.IsNormal) :
    (filterDistribution d).IsNormal := by
  unfold filterDistribution
  cases threshold? d with
  | none => exact Distribution.isNormal_empty
  | some threshold =>
      refine Distribution.isNormal_ofWeights fun token htoken => h.trimmed token ?_
      exact (List.filter_sublist.map Prod.fst).subset htoken

end BlockAffinity
