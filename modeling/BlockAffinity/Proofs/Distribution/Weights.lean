import BlockAffinity.Proofs.Distribution
import BlockAffinity.Proofs.Number.Overflow

/-!
# BlockAffinity.Proofs.Distribution.Weights

**Distributions of weights of any size**, in doubles. What a token has accumulated is the running sum of
its positive weights (`Distribution.get?_accumulate`). None of these sums is a NaN or negative, so
weights have a distribution exactly if one of them is positive and the total does not overflow
(`Distribution.isEmpty_ofWeights_iff`); it lists the tokens with a positive weight, each with a number
from zero to one.

Neither an overflow nor an underflow happens if the exact total is below `2 ^ 1022` and no positive weight
is below the smallest double times the total (`Distribution.isFinite_total`,
`Distribution.probability_pos`).
-/

namespace BlockAffinity.Distribution

open Scalar Double

/-! ### What a token has accumulated -/

section

variable {α : Type} [Scalar α]

/-- The positive weights of a token, in order. -/
def positiveWeights (token : Token) (weights : List (Token × α)) : List α :=
  (weights.filter fun entry => decide (entry.1 = token) && lt zero entry.2).map Prod.snd

theorem mem_positiveWeights {token : Token} {weights : List (Token × α)} {weight : α} :
    weight ∈ positiveWeights token weights ↔ (token, weight) ∈ weights ∧ lt zero weight = true := by
  simp only [positiveWeights, List.mem_map, List.mem_filter, Bool.and_eq_true, decide_eq_true_eq,
    Prod.exists, exists_eq_right]
  constructor
  · rintro ⟨_, hmem, rfl, hpositive⟩
    exact ⟨hmem, hpositive⟩
  · rintro ⟨hmem, hpositive⟩
    exact ⟨token, hmem, rfl, hpositive⟩

theorem positiveWeights_append (token : Token) (weights : List (Token × α)) (entry : Token × α) :
    positiveWeights token (weights ++ [entry]) = positiveWeights token weights ++
      if entry.1 = token ∧ lt zero entry.2 = true then [entry.2] else [] := by
  rw [positiveWeights, List.filter_append, List.map_append, positiveWeights]
  by_cases h : entry.1 = token ∧ lt zero entry.2 = true
  · rw [if_pos h, List.filter_cons_of_pos (by simpa using h)]
    rfl
  · rw [if_neg h, List.filter_cons_of_neg (by simpa using h)]
    rfl

/-- **What a token has accumulated** is the sum of its positive weights, if there are any. -/
theorem get?_accumulate (weights : List (Token × α)) (token : Token) :
    (accumulate weights).get? token =
      if (positiveWeights token weights).isEmpty then none
      else some ((positiveWeights token weights).foldl (· + ·) zero) := by
  induction weights using List.reverseRecOn with
  | nil => rfl
  | append_singleton weights entry ih =>
      have happend := positiveWeights_append token weights entry
      rw [accumulate_append, addWeight]
      by_cases hpositive : lt zero entry.2 = true
      · rw [if_pos hpositive, TokenMap.get?_alter]
        by_cases htoken : entry.1 = token
        · subst htoken
          rw [if_pos ⟨rfl, hpositive⟩] at happend
          rw [if_pos rfl, ih, happend, List.foldl_append]
          cases positiveWeights entry.1 weights <;> rfl
        · rw [if_neg fun h => htoken h.1, List.append_nil] at happend
          rw [if_neg htoken, ih, happend]
      · rw [if_neg fun h => hpositive h.2, List.append_nil] at happend
        rw [if_neg hpositive, ih, happend]

theorem get?_accumulate_eq_some_iff {weights : List (Token × α)} {token : Token} {sum : α} :
    (accumulate weights).get? token = some sum ↔
      positiveWeights token weights ≠ [] ∧
        (positiveWeights token weights).foldl (· + ·) zero = sum := by
  rw [get?_accumulate]
  cases positiveWeights token weights <;> simp

/-- The tokens with a positive weight. -/
theorem mem_tokens_accumulate {weights : List (Token × α)} {token : Token} :
    token ∈ (accumulate weights).tokens ↔
      ∃ weight, (token, weight) ∈ weights ∧ lt zero weight = true := by
  simp only [TokenMap.mem_tokens_iff, get?_accumulate_eq_some_iff, ← mem_positiveWeights,
    exists_and_left, exists_eq', and_true]
  rw [← List.isEmpty_eq_false_iff, List.isEmpty_eq_false_iff_exists_mem]

theorem values_accumulate_ne_nil_iff {weights : List (Token × α)} :
    (accumulate weights).values ≠ [] ↔ ∃ entry ∈ weights, lt zero entry.2 = true := by
  have htokens : (accumulate weights).values ≠ [] ↔ ∃ token, token ∈ (accumulate weights).tokens := by
    rw [TokenMap.values, TokenMap.tokens, ne_eq, List.map_eq_nil_iff, ← ne_eq, ← List.map_eq_nil_iff.ne]
    rw [← List.isEmpty_eq_false_iff, List.isEmpty_eq_false_iff_exists_mem]
  simp only [htokens, mem_tokens_accumulate, Prod.exists]

theorem normalize_eq_map {weights : TokenMap α} (hpositive : le (sum weights.values) zero = false)
    (hfinite : isFinite (sum weights.values) = true) :
    normalize weights = weights.map fun weight => weight / sum weights.values := by
  rw [normalize, hpositive, hfinite]
  rfl

/-- What has been divided has a total that is finite and above zero. -/
theorem total_of_isEmpty_normalize {weights : TokenMap α} (h : (normalize weights).isEmpty = false) :
    le (sum weights.values) zero = false ∧ isFinite (sum weights.values) = true := by
  cases hle : le (sum weights.values) zero <;> cases hfinite : isFinite (sum weights.values) <;>
    simp [normalize, hle, hfinite, TokenMap.empty, TokenMap.isEmpty] at h ⊢

end

variable {weights : List (Token × Float)}

theorem lt_zero_iff_of_isFinite {x : Float} (hx : isFinite x = true) : lt zero x = true ↔ 0 < toRat x := by
  rw [lt_iff_toRat rfl hx, toRat_zero]

/-- What the weights of a list add up to, as it is divided by. -/
def totalWeight (weights : List (Token × Float)) : Float := sum (accumulate weights).values

section

variable (h : ∀ entry ∈ weights, IsDistance entry.2)

include h

theorem isDistance_accumulate {accumulated : Float} (hmem : accumulated ∈ (accumulate weights).values) :
    IsDistance accumulated := by
  obtain ⟨token, hget⟩ := TokenMap.mem_values_iff.mp hmem
  obtain ⟨-, rfl⟩ := get?_accumulate_eq_some_iff.mp hget
  exact isDistance_foldl_add isDistance_zero fun weight hweight =>
    h (token, weight) (mem_positiveWeights.mp hweight).1

/-- **Nothing that a token has accumulated is lost** in a finite total: each of its weights is at most
what it has accumulated, and that is at most the total. -/
theorem le_accumulated (hfinite : isFinite (totalWeight weights) = true) {token : Token}
    {accumulated : Float} (hget : (accumulate weights).get? token = some accumulated) :
    isFinite accumulated = true ∧ 0 < toRat accumulated ∧
      toRat accumulated ≤ toRat (totalWeight weights) ∧
      ∀ weight, (token, weight) ∈ weights → lt zero weight = true → toRat weight ≤ toRat accumulated := by
  have hmem : accumulated ∈ (accumulate weights).values := TokenMap.mem_values_iff.mpr ⟨token, hget⟩
  obtain ⟨-, -, hvalues⟩ := (inRange_sumStart le_rfl).isDistance.foldl_add_of_isFinite
    (fun _ => isDistance_accumulate h) hfinite
  obtain ⟨hfinite', hle⟩ := hvalues accumulated hmem
  obtain ⟨hne, rfl⟩ := get?_accumulate_eq_some_iff.mp hget
  obtain ⟨-, -, hweights⟩ := isDistance_zero.foldl_add_of_isFinite
    (fun weight hweight => h (token, weight) (mem_positiveWeights.mp hweight).1) hfinite'
  refine ⟨hfinite', ?_, hle, fun weight hweight hpositive =>
    (hweights weight (mem_positiveWeights.mpr ⟨hweight, hpositive⟩)).2⟩
  obtain ⟨first, hfirst⟩ := List.exists_mem_of_ne_nil _ hne
  obtain ⟨hfinite'', hle'⟩ := hweights first hfirst
  exact ((lt_zero_iff_of_isFinite hfinite'').mp (mem_positiveWeights.mp hfirst).2).trans_le hle'

/-- **There is a distribution** exactly if some weight is positive and the total is finite. -/
theorem isEmpty_ofWeights_iff : (ofWeights weights).isEmpty = false ↔
    (∃ entry ∈ weights, lt zero entry.2 = true) ∧ isFinite (totalWeight weights) = true := by
  rw [← values_accumulate_ne_nil_iff]
  constructor
  · intro hkept
    obtain ⟨hpositive, hfinite⟩ := total_of_isEmpty_normalize hkept
    refine ⟨fun hnone => ?_, hfinite⟩
    rw [TokenMap.isEmpty_eq_false_iff, ofWeights, normalize_eq_map hpositive hfinite,
      TokenMap.values_map, hnone] at hkept
    exact hkept rfl
  · rintro ⟨hne, hfinite⟩
    obtain ⟨accumulated, hmem⟩ := List.exists_mem_of_ne_nil _ hne
    obtain ⟨token, hget⟩ := TokenMap.mem_values_iff.mp hmem
    obtain ⟨-, hpos, hle, -⟩ := le_accumulated h hfinite hget
    have htotal : le (totalWeight weights) zero = false :=
      (le_eq_false_iff_toRat hfinite rfl).mpr (hpos.trans_le hle)
    rw [TokenMap.isEmpty_eq_false_iff, ofWeights, normalize_eq_map htotal hfinite, TokenMap.values_map]
    exact fun hnone => hne (List.map_eq_nil_iff.mp hnone)

end

theorem ofWeights_eq_map (hkept : (ofWeights weights).isEmpty = false) :
    ofWeights weights = (accumulate weights).map fun weight => weight / totalWeight weights := by
  obtain ⟨hpositive, hfinite⟩ := total_of_isEmpty_normalize hkept
  exact normalize_eq_map hpositive hfinite

/-- **The tokens of a distribution** are those with a positive weight. -/
theorem mem_tokens_ofWeights (hkept : (ofWeights weights).isEmpty = false) {token : Token} :
    token ∈ (ofWeights weights).tokens ↔
      ∃ weight, (token, weight) ∈ weights ∧ lt zero weight = true := by
  rw [ofWeights_eq_map hkept, TokenMap.tokens_map, mem_tokens_accumulate]

/-- **A probability** is a quotient of two finite doubles, rounded, from zero to one. -/
theorem probability_of_weights (h : ∀ entry ∈ weights, IsDistance entry.2) {token : Token} {p : Float}
    (hget : (ofWeights weights).get? token = some p) :
    ∃ accumulated, (accumulate weights).get? token = some accumulated ∧
      isFinite (totalWeight weights) = true ∧ InRange 1 p ∧
      IsRounding (toRat accumulated / toRat (totalWeight weights)) p := by
  have hkept : (ofWeights weights).isEmpty = false :=
    TokenMap.isEmpty_eq_false_iff.mpr (List.ne_nil_of_mem (TokenMap.mem_values_iff.mpr ⟨token, hget⟩))
  have hfinite : isFinite (totalWeight weights) = true := ((isEmpty_ofWeights_iff h).mp hkept).2
  rw [ofWeights_eq_map hkept, TokenMap.get?_map_eq_some_iff] at hget
  obtain ⟨accumulated, haccumulated, rfl⟩ := hget
  obtain ⟨hfinite', hpos, hle, -⟩ := le_accumulated h hfinite haccumulated
  have htotal : 0 < toRat (totalWeight weights) := hpos.trans_le hle
  have hquotient : |toRat accumulated / toRat (totalWeight weights)| ≤ largest := by
    refine abs_le_largest_of_le (n := 0) (by norm_num) (div_nonneg hpos.le htotal.le) ?_
    rw [pow_zero]
    exact div_le_one_of_le₀ hle htotal.le
  exact ⟨accumulated, haccumulated, hfinite,
    InRange.div ⟨hfinite', hpos.le, le_rfl⟩ hfinite htotal hle,
    isRounding_div hfinite' hfinite htotal.ne' hquotient⟩

/-- **Weights of any size** give probabilities from zero to one. -/
theorem isBounded_ofWeights (h : ∀ entry ∈ weights, IsDistance entry.2) :
    IsBounded (ofWeights weights) := by
  intro p hp
  obtain ⟨token, hget⟩ := TokenMap.mem_values_iff.mp hp
  obtain ⟨-, -, -, hrange, -⟩ := probability_of_weights h hget
  exact hrange

/-! ### Weights that have room -/

/-- What the weights of a list add up to exactly. -/
def exactTotal (weights : List (Token × Float)) : ℚ := (weights.map fun entry => toRat entry.2).sum

theorem exactTotal_append (weights : List (Token × Float)) (entry : Token × Float) :
    exactTotal (weights ++ [entry]) = exactTotal weights + toRat entry.2 := by
  simp [exactTotal]

theorem exactTotal_nonneg {b : ℚ} (h : ∀ entry ∈ weights, InRange b entry.2) :
    0 ≤ exactTotal weights := by
  refine List.sum_nonneg fun q hq => ?_
  obtain ⟨entry, hentry, rfl⟩ := List.mem_map.mp hq
  exact (h entry hentry).nonneg

theorem toRat_le_exactTotal {b : ℚ} (h : ∀ entry ∈ weights, InRange b entry.2) {entry : Token × Float}
    (hentry : entry ∈ weights) : toRat entry.2 ≤ exactTotal weights := by
  refine List.single_le_sum (fun q hq => ?_) _
    (List.mem_map_of_mem (f := fun entry : Token × Float => toRat entry.2) hentry)
  obtain ⟨other, hother, rfl⟩ := List.mem_map.mp hq
  exact (h other hother).nonneg

theorem length_alterTokens_le {β : Type} (token : Token) (f : Option β → β)
    (entries : List (Token × β)) : (alterTokens token f entries).length ≤ entries.length + 1 := by
  induction entries with
  | nil => exact le_rfl
  | cons entry rest ih =>
      obtain ⟨key, value⟩ := entry
      rw [alterTokens]
      split_ifs <;> simp only [List.length_cons] <;> omega

/-- Adding to one of the entries adds to their sum, up to a factor. -/
theorem sum_alterTokens_le {token : Token} {f : Option Float → Float} {w c : ℚ} (hc : 1 ≤ c)
    {entries : List (Token × Float)} (hnonneg : ∀ entry ∈ entries, 0 ≤ toRat entry.2)
    (hnone : toRat (f none) ≤ w * c)
    (hsome : ∀ entry ∈ entries, toRat (f (some entry.2)) ≤ (toRat entry.2 + w) * c) :
    ((alterTokens token f entries).map fun entry => toRat entry.2).sum ≤
      ((entries.map fun entry => toRat entry.2).sum + w) * c := by
  induction entries with
  | nil => simpa [alterTokens] using hnone
  | cons entry rest ih =>
      obtain ⟨key, value⟩ := entry
      rw [List.forall_mem_cons] at hnonneg hsome
      have hvalue : toRat value ≤ toRat value * c := le_mul_of_one_le_right hnonneg.1 hc
      have hrest : (rest.map fun entry => toRat entry.2).sum ≤
          (rest.map fun entry => toRat entry.2).sum * c := by
        refine le_mul_of_one_le_right (List.sum_nonneg fun q hq => ?_) hc
        obtain ⟨entry, hentry, rfl⟩ := List.mem_map.mp hq
        exact hnonneg.2 entry hentry
      rw [alterTokens]
      split_ifs with hlt heq
      · simp only [List.map_cons, List.sum_cons]
        linarith
      · simp only [List.map_cons, List.sum_cons]
        linarith [hsome.1]
      · simp only [List.map_cons, List.sum_cons]
        linarith [ih hnonneg.2 hsome.2]

/-- Accumulated weights that are far from overflowing. -/
def HasRoom (accumulated : TokenMap Float) : Prop :=
  ∀ entry ∈ accumulated.entries, InRange (2 ^ 1023) entry.2

/-- One more weight adds to the accumulated ones, up to a rounding. -/
theorem addWeight_le {accumulated : TokenMap Float} (token : Token) {weight : Float}
    (h : HasRoom accumulated) (hweight : InRange (2 ^ 1023) weight)
    (hroom : exactTotal accumulated.entries + toRat weight < 2 ^ 1023) :
    HasRoom (addWeight accumulated token weight) ∧
      exactTotal (addWeight accumulated token weight).entries ≤
        (exactTotal accumulated.entries + toRat weight) * (1 + unitRoundoff) := by
  have hgrowth : 1 ≤ 1 + unitRoundoff := by simpa using one_le_roundings 1
  have htotal := exactTotal_nonneg h
  rw [addWeight]
  split
  · -- what is added to is nothing or one of the entries
    have hadd {old : Float} (hold : InRange (2 ^ 1023) old)
        (hle : toRat old ≤ exactTotal accumulated.entries) :
        InRange (2 ^ 1023) (old + weight) ∧
          toRat (old + weight) ≤ (toRat old + toRat weight) * (1 + unitRoundoff) :=
      toRat_add_le hold hweight ((add_le_add hle le_rfl).trans_lt hroom)
    have hnothing := hadd (inRange_zero (pow_nonneg zero_le_two _)) htotal
    have hsomething {entry : Token × Float} (hentry : entry ∈ accumulated.entries) :=
      hadd (h entry hentry) (toRat_le_exactTotal h hentry)
    constructor
    · rintro ⟨key, value⟩ hmem
      have hget := TokenMap.mem_entries_iff.mp hmem
      rw [TokenMap.get?_alter] at hget
      split at hget
      · obtain rfl := Option.some.inj hget
        cases hold : accumulated.get? token with
        | none => exact hnothing.1
        | some old => exact (hsomething (TokenMap.mem_entries_iff.mpr hold)).1
      · exact h _ (TokenMap.mem_entries_iff.mpr hget)
    · refine sum_alterTokens_le (f := fun old : Option Float => old.getD zero + weight) hgrowth
        (fun entry hentry => (h entry hentry).nonneg) ?_ fun entry hentry => (hsomething hentry).2
      simpa using hnothing.2
  · exact ⟨h, (le_add_of_nonneg_right hweight.nonneg).trans
      (le_mul_of_one_le_right (add_nonneg htotal hweight.nonneg) hgrowth)⟩

theorem length_addWeight_le (accumulated : TokenMap Float) (token : Token) (weight : Float) :
    (addWeight accumulated token weight).entries.length ≤ accumulated.entries.length + 1 := by
  rw [addWeight]
  split
  · exact length_alterTokens_le token _ accumulated.entries
  · exact Nat.le_succ _

theorem length_accumulate_le (weights : List (Token × Float)) :
    (accumulate weights).entries.length ≤ weights.length := by
  induction weights using List.reverseRecOn with
  | nil => exact le_rfl
  | append_singleton weights entry ih =>
      rw [accumulate_append, List.length_append, List.length_singleton]
      exact (length_addWeight_le _ _ _).trans (Nat.add_le_add_right ih 1)

/-- **What has been accumulated** exceeds the exact total by a factor for each weight at most. -/
theorem accumulate_le (h : ∀ entry ∈ weights, InRange (2 ^ 1023) entry.2)
    (hroom : exactTotal weights * (1 + unitRoundoff) ^ weights.length < 2 ^ 1023) :
    HasRoom (accumulate weights) ∧ exactTotal (accumulate weights).entries ≤
      exactTotal weights * (1 + unitRoundoff) ^ weights.length := by
  induction weights using List.reverseRecOn with
  | nil => exact ⟨fun _ hmem => absurd hmem List.not_mem_nil, by simp [accumulate, TokenMap.empty, exactTotal]⟩
  | append_singleton weights entry ih =>
      have hbefore : ∀ entry ∈ weights, InRange (2 ^ 1023) entry.2 := fun e he =>
        h e (List.mem_append_left _ he)
      have hlast : InRange (2 ^ 1023) entry.2 := h entry (by simp)
      rw [exactTotal_append, List.length_append, List.length_singleton,
        pow_succ (1 + unitRoundoff) weights.length, ← mul_assoc] at hroom ⊢
      -- the last weight and the last rounding only add
      have hgrowth : 1 ≤ 1 + unitRoundoff := by simpa using one_le_roundings 1
      have hmore : exactTotal weights * (1 + unitRoundoff) ^ weights.length + toRat entry.2 ≤
          (exactTotal weights + toRat entry.2) * (1 + unitRoundoff) ^ weights.length := by
        linarith [le_mul_of_one_le_right hlast.nonneg (one_le_roundings weights.length)]
      have hpos : 0 ≤ (exactTotal weights + toRat entry.2) * (1 + unitRoundoff) ^ weights.length :=
        mul_nonneg (add_nonneg (exactTotal_nonneg hbefore) hlast.nonneg)
          (zero_le_one.trans (one_le_roundings _))
      have hfactor := le_mul_of_one_le_right hpos hgrowth
      have hlimit := (hmore.trans hfactor).trans_lt hroom
      obtain ⟨hrange, hle⟩ := ih hbefore ((le_add_of_nonneg_right hlast.nonneg).trans_lt hlimit)
      have hsum := (add_le_add hle le_rfl).trans hmore
      obtain ⟨hrange', hle'⟩ :=
        addWeight_le entry.1 hrange hlast ((hsum.trans hfactor).trans_lt hroom)
      rw [accumulate_append]
      exact ⟨hrange', hle'.trans (mul_le_mul_of_nonneg_right hsum (zero_le_one.trans hgrowth))⟩

section

variable (h : ∀ entry ∈ weights, InRange (2 ^ 1023) entry.2) (hroom : exactTotal weights < 2 ^ 1022)
  (hlength : weights.length ≤ 2 ^ 49)

include h hroom hlength

/-- **The total does not overflow** if the exact one is below `2 ^ 1022`, and it is at most twice as
large. -/
theorem isFinite_total :
    isFinite (totalWeight weights) = true ∧ toRat (totalWeight weights) ≤ 2 * exactTotal weights := by
  have htotal := exactTotal_nonneg h
  have hgrowth {k : ℕ} (hk : k ≤ 2 ^ 50) : (1 + unitRoundoff) ^ k ≤ 2 :=
    one_add_pow_le_two unitRoundoff_pos.le (natCast_mul_unitRoundoff_lt hk).le
  have htwice : exactTotal weights * 2 < 2 ^ 1023 :=
    (mul_lt_mul_of_pos_right hroom two_pos).trans_eq (pow_succ 2 1022).symm
  obtain ⟨hrange, hle⟩ := accumulate_le h
    ((mul_le_mul_of_nonneg_left (hgrowth (by omega)) htotal).trans_lt htwice)
  -- the total takes a rounding for each token
  have hentries := length_accumulate_le weights
  have hsum : (toRat (sumStart : Float) + ((accumulate weights).values.map toRat).sum) *
      (1 + unitRoundoff) ^ (accumulate weights).values.length ≤ 2 * exactTotal weights := by
    have hvalues : ((accumulate weights).values.map toRat).sum =
        exactTotal (accumulate weights).entries := by
      rw [TokenMap.values, List.map_map]
      rfl
    rw [toRat_sumStart, zero_add, hvalues, TokenMap.values, List.length_map]
    calc exactTotal (accumulate weights).entries *
          (1 + unitRoundoff) ^ (accumulate weights).entries.length
        ≤ exactTotal weights * (1 + unitRoundoff) ^ weights.length *
            (1 + unitRoundoff) ^ (accumulate weights).entries.length :=
          mul_le_mul_of_nonneg_right hle (zero_le_one.trans (one_le_roundings _))
      _ = exactTotal weights *
            (1 + unitRoundoff) ^ (weights.length + (accumulate weights).entries.length) := by
          rw [mul_assoc, ← pow_add]
      _ ≤ exactTotal weights * 2 := mul_le_mul_of_nonneg_left (hgrowth (by omega)) htotal
      _ = 2 * exactTotal weights := mul_comm _ _
  obtain ⟨hfinite, hle'⟩ := inRange_foldl_add_of_sum (inRange_sumStart (pow_nonneg zero_le_two _))
    (fun value hvalue => by
      obtain ⟨entry, hentry, rfl⟩ := List.mem_map.mp hvalue
      exact hrange entry hentry) (hsum.trans_lt ((mul_comm _ _).trans_lt htwice))
  exact ⟨hfinite.finite, hle'.trans hsum⟩

/-- **A probability does not underflow** if a weight of its token is above the smallest double times the
exact total. -/
theorem probability_pos {token : Token} {weight p : Float} (hweight : (token, weight) ∈ weights)
    (hlarge : smallest * exactTotal weights < toRat weight)
    (hget : (ofWeights weights).get? token = some p) : 0 < toRat p := by
  have hdistance : ∀ entry ∈ weights, IsDistance entry.2 := fun entry hentry => (h entry hentry).isDistance
  obtain ⟨accumulated, haccumulated, hfinite, -, hround⟩ := probability_of_weights hdistance hget
  obtain ⟨-, htotal⟩ := isFinite_total h hroom hlength
  obtain ⟨-, hpos, hle, hweights⟩ := le_accumulated hdistance hfinite haccumulated
  have hpositive : lt zero weight = true :=
    (lt_zero_iff_of_isFinite (h _ hweight).finite).mpr
      ((mul_nonneg smallest_pos.le (exactTotal_nonneg h)).trans_lt hlarge)
  refine hround.toRat_pos ?_
  rw [lt_div_iff₀ (hpos.trans_le hle)]
  have hscaled := mul_le_mul_of_nonneg_left htotal smallest_pos.le
  linarith [hweights weight hweight hpositive]

end

end BlockAffinity.Distribution
