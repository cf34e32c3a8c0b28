import BlockAffinity.Entropy
import BlockAffinity.Proofs.Number.Range
import BlockAffinity.Proofs.TokenMap
import Mathlib.Algebra.Order.BigOperators.Group.List

/-!
# BlockAffinity.Proofs.Distribution

**Probabilities are between zero and one**, in doubles, wherever distributions come from: counts are
at most their total and so are weights, and a part divided by the whole rounds to a double in that
range. The entropy filter divides again what it keeps.
-/

namespace BlockAffinity

open Scalar

namespace Distribution

/-! ### Accumulated weights -/

section

variable {α : Type} [Scalar α]

theorem accumulate_append (weights : List (Token × α)) (entry : Token × α) :
    accumulate (weights ++ [entry]) = addWeight (accumulate weights) entry.1 entry.2 := by
  simp [accumulate]

/-- Weights of different tokens are added to nothing. -/
theorem mem_of_get?_accumulate {weights : List (Token × α)}
    (hdistinct : (weights.map Prod.fst).Nodup) {token : Token} {value : α}
    (h : (accumulate weights).get? token = some value) :
    ∃ weight, (token, weight) ∈ weights ∧ value = zero + weight := by
  induction weights using List.reverseRecOn generalizing token value with
  | nil => exact absurd h (by simp [accumulate])
  | append_singleton weights entry ih =>
      rw [List.map_append, List.nodup_append] at hdistinct
      obtain ⟨hbefore, -, hnew⟩ := hdistinct
      rw [accumulate_append, addWeight] at h
      -- the last token is not in the map yet
      have hnone : (accumulate weights).get? entry.1 = none := by
        refine Option.eq_none_iff_forall_ne_some.mpr fun old hold => ?_
        obtain ⟨weight, hmem, -⟩ := ih hbefore hold
        exact hnew _ (List.mem_map_of_mem hmem) entry.1 (by simp) rfl
      split at h
      · rw [TokenMap.get?_alter] at h
        split at h
        · rename_i htoken
          rw [hnone, Option.getD_none, Option.some.injEq] at h
          exact ⟨entry.2, by simp [← htoken], h.symm⟩
        · obtain ⟨weight, hmem, hvalue⟩ := ih hbefore h
          exact ⟨weight, List.mem_append_left _ hmem, hvalue⟩
      · obtain ⟨weight, hmem, hvalue⟩ := ih hbefore h
        exact ⟨weight, List.mem_append_left _ hmem, hvalue⟩

/-- Positive weights of ascending tokens are added to nothing one after the other. -/
theorem entries_accumulate {weights : List (Token × α)}
    (hascending : weights.Pairwise fun a b => a.1 < b.1)
    (hpositive : ∀ entry ∈ weights, lt zero entry.2 = true) :
    (accumulate weights).entries = weights.map fun entry => (entry.1, zero + entry.2) := by
  induction weights using List.reverseRecOn with
  | nil => rfl
  | append_singleton weights entry ih =>
      rw [List.pairwise_append] at hascending
      obtain ⟨hbefore, -, hlast⟩ := hascending
      have hentries := ih hbefore fun entry hentry => hpositive entry (List.mem_append_left _ hentry)
      have hless : ∀ old ∈ (accumulate weights).entries, old.1 < entry.1 := by
        rw [hentries]
        rintro _ hadded
        obtain ⟨old, hold, rfl⟩ := List.mem_map.mp hadded
        exact hlast old hold entry List.mem_cons_self
      rw [accumulate_append, addWeight, if_pos (hpositive entry (by simp))]
      show alterTokens entry.1 _ (accumulate weights).entries = _
      rw [alterTokens_of_forall_lt _ hless, hentries, List.map_append]
      rfl

/-- Positive probabilities are accumulated as they are, but for the zero that they are added to. -/
theorem accumulate_entries {d : Distribution α} (h : ∀ p ∈ d.values, lt zero p = true) :
    accumulate d.entries = d.map fun p => zero + p :=
  TokenMap.ext_entries
    (entries_accumulate d.ascending fun _ hentry => h _ (List.mem_map_of_mem hentry))

end

/-! ### Bounded distributions -/

open Double

/-- Every listed probability is between zero and one. -/
def IsBounded (d : Distribution Float) : Prop := ∀ p ∈ d.values, InRange 1 p

theorem isBounded_empty : IsBounded .empty := by simp [IsBounded, TokenMap.empty, TokenMap.values]

theorem inRange_probability {d : Distribution Float} (h : IsBounded d) (token : Token) :
    InRange 1 (probability d token) := by
  unfold probability
  cases hp : d.get? token with
  | none => exact inRange_zero zero_le_one
  | some p => exact h p (TokenMap.mem_values_iff.mpr ⟨token, hp⟩)

theorem ofCounts_eq {α : Type} [Scalar α] (counts : TokenMap Nat) :
    (ofCounts counts : Distribution α) = if counts.values.sum = 0 then .empty
      else (counts.filter fun count => 0 < count).map fun count =>
        ofNat count / ofNat counts.values.sum := rfl

/-- A relative frequency is a count divided by the total. -/
theorem exists_of_mem_ofCounts {α : Type} [Scalar α] {counts : TokenMap Nat} {p : α}
    (h : p ∈ (ofCounts counts : Distribution α).values) :
    ∃ count, 1 ≤ count ∧ count ≤ counts.values.sum ∧ p = ofNat count / ofNat counts.values.sum := by
  rw [ofCounts_eq] at h
  split_ifs at h
  · exact absurd h List.not_mem_nil
  obtain ⟨token, h⟩ := TokenMap.mem_values_iff.mp h
  obtain ⟨count, hcount, rfl⟩ := TokenMap.get?_map_eq_some_iff.mp h
  obtain ⟨hcount, hpositive⟩ := TokenMap.get?_filter_eq_some_iff.mp hcount
  exact ⟨count, of_decide_eq_true hpositive,
    List.single_le_sum (by simp) count (TokenMap.mem_values_iff.mpr ⟨token, hcount⟩), rfl⟩

/-- **Relative frequencies** are between zero and one, as long as the total has a double. -/
theorem isBounded_ofCounts {counts : TokenMap Nat} (h : (counts.values.sum : ℚ) ≤ largest) :
    IsBounded (ofCounts counts) := by
  intro p hp
  obtain ⟨count, hone, hle, rfl⟩ := exists_of_mem_ofCounts hp
  generalize counts.values.sum = total at *
  have hle' : (count : ℚ) ≤ total := by exact_mod_cast hle
  have hpart := isRounding_ofNat (hle'.trans h)
  have hwhole := isRounding_ofNat h
  have hpart0 : InRange largest (ofNat count : Float) :=
    hpart.inRange representable_largest (Nat.cast_nonneg count) (hle'.trans h)
  have hwhole1 : 1 ≤ toRat (ofNat total) := by
    refine hwhole.le_toRat (by simpa using representable_two_pow 0) ?_
    exact_mod_cast hone.trans hle
  refine hpart0.div hwhole.finite (by linarith) ?_
  rcases hle.lt_or_eq with hlt | rfl
  · exact hpart.toRat_mono hwhole (by exact_mod_cast hlt)
  · exact le_rfl

/-- **Weights divided by their total** are between zero and one if the weights are. -/
theorem isBounded_normalize {weights : TokenMap Float} (h : ∀ w ∈ weights.values, InRange 1 w) :
    IsBounded (normalize weights) := by
  unfold normalize
  dsimp only
  split_ifs with hbad
  · exact isBounded_empty
  rw [Bool.or_eq_true, not_or, Bool.not_eq_true, Bool.not_eq_true] at hbad
  intro p hp
  obtain ⟨token, hp⟩ := TokenMap.mem_values_iff.mp hp
  obtain ⟨weight, hweight, rfl⟩ := TokenMap.get?_map_eq_some_iff.mp hp
  have hmem : weight ∈ weights.values := TokenMap.mem_values_iff.mpr ⟨token, hweight⟩
  have htotal := inRange_sum h
  exact (h weight hmem).div htotal.finite
    ((le_eq_false_iff_toRat htotal.finite rfl).mp hbad.1) (toRat_le_sum h hmem)

/-- Adding up a selection of the entries leaves each of them in the range, and not smaller. -/
theorem inRange_accumulate_filter {d : Distribution Float} (h : IsBounded d) {keep : Token × Float → Bool}
    {w : Float} (hw : w ∈ (accumulate (d.entries.filter keep)).values) :
    InRange 1 w ∧ ∃ p ∈ d.values, toRat p ≤ toRat w := by
  obtain ⟨token, hw⟩ := TokenMap.mem_values_iff.mp hw
  have hdistinct : ((d.entries.filter keep).map Prod.fst).Nodup :=
    d.nodup_tokens.sublist (List.filter_sublist.map Prod.fst)
  obtain ⟨p, hmem, rfl⟩ := mem_of_get?_accumulate hdistinct hw
  have hentry := TokenMap.mem_entries_iff.mp (List.mem_of_mem_filter hmem)
  have hp : p ∈ d.values := TokenMap.mem_values_iff.mpr ⟨token, hentry⟩
  exact ⟨(h p hp).zero_add.1, p, hp, (h p hp).zero_add.2⟩

/-- Dividing by their total keeps the tokens of positive probabilities. -/
theorem tokens_ofWeights_entries {d : Distribution Float} (h : IsBounded d)
    (hpositive : ∀ p ∈ d.values, lt zero p = true) : (ofWeights d.entries).tokens = d.tokens := by
  rw [ofWeights, accumulate_entries hpositive]
  have hrange : ∀ w ∈ (d.map fun p => zero + p).values, InRange 1 w := by
    rw [TokenMap.values_map]
    rintro _ hw
    obtain ⟨p, hp, rfl⟩ := List.mem_map.mp hw
    exact (h p hp).zero_add.1
  unfold normalize
  dsimp only
  split
  · rename_i hbad
    rw [Bool.or_eq_true, Bool.not_eq_true', (inRange_sum hrange).finite, or_iff_left (by simp)] at hbad
    -- a token would make the total positive
    have hnone : d.values = [] := by
      refine List.eq_nil_iff_forall_not_mem.mpr fun p hp => ?_
      have hpos : 0 < toRat p := by
        simpa using (lt_iff_toRat rfl (h p hp).finite).mp (hpositive p hp)
      have hmem : zero + p ∈ (d.map fun p => zero + p).values := by
        rw [TokenMap.values_map]
        exact List.mem_map_of_mem hp
      rw [le_sum_zero_eq_false hrange hmem (hpos.trans_le (h p hp).zero_add.2)] at hbad
      exact absurd hbad (by simp)
    rw [TokenMap.values, List.map_eq_nil_iff] at hnone
    simp [TokenMap.tokens, TokenMap.empty, hnone]
  · rw [TokenMap.tokens_map, TokenMap.tokens_map]

end Distribution

namespace Entropy

open Double

/-- The entropy filter keeps probabilities between zero and one. -/
theorem isBounded_filterDistribution {d : Distribution Float} (h : Distribution.IsBounded d) :
    Distribution.IsBounded (filterDistribution d) := by
  unfold filterDistribution
  cases threshold? d with
  | none => exact Distribution.isBounded_empty
  | some threshold =>
      exact Distribution.isBounded_normalize fun w hw => (Distribution.inRange_accumulate_filter h hw).1

end Entropy

end BlockAffinity
