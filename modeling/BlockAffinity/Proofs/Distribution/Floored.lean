import BlockAffinity.Proofs.Distribution.Weights

/-!
# BlockAffinity.Proofs.Distribution.Floored

**Probabilities that are not small**, in doubles. A relative frequency is at least one part of the total, so
counting gives no probability below a power of two (`Distribution.isFloored_ofCounts`). Choosing some of
the probabilities and dividing them by their total makes them smaller by a factor of `2 ^ 54` at most,
since sums of probabilities do not grow beyond it (`Distribution.isFloored_ofWeights_filter`).
-/

namespace BlockAffinity.Distribution

open Scalar Double

/-- No listed probability is below a power of two. -/
def IsFloored (e : ℤ) (d : Distribution Float) : Prop := ∀ p ∈ d.values, 2 ^ e ≤ toRat p

theorem isFloored_empty {e : ℤ} : IsFloored e .empty := fun _ h => absurd h List.not_mem_nil

/-- **A relative frequency** is at least one part of the total. -/
theorem isFloored_ofCounts {counts : TokenMap Nat} {n : ℕ} (hn : n ≤ 1000)
    (htotal : counts.values.sum ≤ 2 ^ n) : IsFloored (-n) (ofCounts counts) := by
  intro p hp
  obtain ⟨count, hone, hle, rfl⟩ := exists_of_mem_ofCounts hp
  generalize counts.values.sum = total at *
  have hpower : (total : ℚ) ≤ 2 ^ n := by exact_mod_cast htotal
  have hlargest : (total : ℚ) ≤ largest := hpower.trans (two_pow_le_largest (by omega))
  have hcast : (count : ℚ) ≤ total := by exact_mod_cast hle
  have hpart := isRounding_ofNat (hcast.trans hlargest)
  have hwhole := isRounding_ofNat hlargest
  have hpart1 : 1 ≤ toRat (ofNat count) :=
    hpart.le_toRat (by simpa using representable_two_pow 0) (by exact_mod_cast hone)
  have hwhole1 : 1 ≤ toRat (ofNat total) :=
    hwhole.le_toRat (by simpa using representable_two_pow 0) (by exact_mod_cast hone.trans hle)
  have hwhole2 : toRat (ofNat total) ≤ 2 ^ n := hwhole.toRat_le (representable_two_pow n) hpower
  have hquotient : (2 : ℚ) ^ (-n : ℤ) ≤ toRat (ofNat count) / toRat (ofNat total) := by
    rw [zpow_neg, zpow_natCast, inv_eq_one_div]
    exact div_le_div₀ (zero_le_one.trans hpart1) hpart1 (zero_lt_one.trans_le hwhole1) hwhole2
  have hfits : |toRat (ofNat count : Float) / toRat (ofNat total : Float)| ≤ largest := by
    rw [abs_of_nonneg ((two_zpow_pos _).le.trans hquotient)]
    exact (div_le_self (zero_le_one.trans hpart1) hwhole1).trans
      ((le_abs_self _).trans (abs_toRat_le_largest _))
  exact (isRounding_div hpart.finite hwhole.finite (zero_lt_one.trans_le hwhole1).ne' hfits).le_toRat
    (representable_two_zpow (by omega)) hquotient

/-- Dividing a selection of probabilities by their total makes none of them much smaller. -/
theorem isFloored_ofWeights_filter {d : Distribution Float} {e : ℤ} (he : -1000 ≤ e) (h : d.IsBounded)
    (hd : IsFloored e d) (keep : Token × Float → Bool) :
    IsFloored (e - 54) (ofWeights (d.entries.filter keep)) := by
  have hrange {w : Float} (hw : w ∈ (accumulate (d.entries.filter keep)).values) :=
    inRange_accumulate_filter h hw
  intro p hp
  have hkept : (ofWeights (d.entries.filter keep)).isEmpty = false :=
    TokenMap.isEmpty_eq_false_iff.mpr (List.ne_nil_of_mem hp)
  obtain ⟨token, hp⟩ := TokenMap.mem_values_iff.mp hp
  have hdistance : ∀ entry ∈ d.entries.filter keep, IsDistance entry.2 := fun entry hentry =>
    (h _ (List.mem_map_of_mem (List.mem_of_mem_filter hentry))).isDistance
  obtain ⟨w, hget, hfinite, hunit, hround⟩ := probability_of_weights hdistance hp
  have hw : w ∈ (accumulate (d.entries.filter keep)).values := TokenMap.mem_values_iff.mpr ⟨token, hget⟩
  obtain ⟨hwrange, q, hq, hle⟩ := hrange hw
  have htotal : toRat (totalWeight (d.entries.filter keep)) ≤ 2 ^ 54 :=
    (inRange_sum fun _ hw => (hrange hw).1).le
  have hpart : toRat w ≤ toRat (totalWeight (d.entries.filter keep)) :=
    toRat_le_sum (fun _ hw => (hrange hw).1) hw
  have hlow : 2 ^ e ≤ toRat w := (hd q hq).trans hle
  refine hround.le_toRat (representable_two_zpow (by omega)) ?_
  have hpos := two_zpow_pos e
  rw [zpow_sub₀ two_ne_zero]
  exact div_le_div₀ (hpos.le.trans hlow) hlow (hpos.trans_le (hlow.trans hpart)) htotal

theorem isBounded_ofWeights_filter {d : Distribution Float} (h : d.IsBounded)
    (keep : Token × Float → Bool) : IsBounded (ofWeights (d.entries.filter keep)) :=
  isBounded_ofWeights fun _ hentry => (h _ (List.mem_map_of_mem (List.mem_of_mem_filter hentry))).isDistance

end BlockAffinity.Distribution
