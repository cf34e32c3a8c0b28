import BlockAffinity.Proofs.Number.Rational
import BlockAffinity.ScoreMatrix.Validity

/-!
# BlockAffinity.Proofs.Number.Range

**Doubles from zero to a bound.** Probabilities lie in the range from zero to one and so do guarded
divergences; what scoring makes of them stays in a range, too, and a double in a range is finite and
not negative.

The range of a sum does not grow with the number of its terms. From `2 ^ 54` on doubles are at least
four apart, so a term of at most one is lost in rounding (`InRange.add_unit`), and a sum of any
length is at most `2 ^ 54` (`inRange_sum`).
-/

namespace BlockAffinity.Double

open Scalar

/-- A finite double from zero to a bound. -/
structure InRange (bound : ℚ) (x : Float) : Prop where
  finite : isFinite x = true
  nonneg : 0 ≤ toRat x
  le : toRat x ≤ bound

variable {x y : Float} {a b c v : ℚ}

namespace InRange

theorem weaken (h : InRange a x) (hab : a ≤ b) : InRange b x := ⟨h.finite, h.nonneg, h.le.trans hab⟩

theorem bound_nonneg (h : InRange a x) : 0 ≤ a := h.nonneg.trans h.le

theorem lt_zero (h : InRange a x) : lt x zero = false :=
  (lt_eq_false_iff_toRat h.finite rfl).mpr h.nonneg

end InRange

theorem inRange_zero (hb : 0 ≤ b) : InRange b zero := ⟨rfl, le_rfl, hb⟩

theorem inRange_one : InRange 1 one := ⟨rfl, by rw [toRat_one]; norm_num, toRat_one.le⟩

theorem inRange_sumStart (hb : 0 ≤ b) : InRange b sumStart := ⟨rfl, le_rfl, hb⟩

/-- A finite double that does not compare below zero is in some range. -/
theorem inRange_of_lt_zero (hfinite : isFinite x = true) (h : lt x zero = false) :
    InRange (toRat x) x :=
  ⟨hfinite, (lt_eq_false_iff_toRat hfinite rfl).mp h, le_rfl⟩

/-- A double above zero that is at most one is finite. -/
theorem inRange_of_lt_of_le (hpositive : lt zero x = true) (hle : le x one = true) : InRange 1 x := by
  obtain ⟨-, -, hrank⟩ := lt_iff.mp hpositive
  obtain ⟨hnumber, -, hnot⟩ := OrderedScalar.le_iff.mp hle
  have hfinite : isFinite x = true := by
    rw [isNaN_eq] at hnumber
    rw [lt_eq_false_iff rfl hnumber] at hnot
    rw [isFinite_eq]
    have hone : rank (unpacked one) = toLex (1, toLex (-52, 2 ^ 52)) := by rfl
    rw [hone] at hnot
    generalize unpacked x = u at *
    rcases u with ⟨⟨⟩⟩ | _ | _ | _
    · exact absurd hrank (by decide)
    · exact absurd hnot (by decide)
    · contradiction
    · rfl
    · rfl
  refine ⟨hfinite, ?_, ?_⟩
  · simpa using ((lt_iff_toRat rfl hfinite).mp hpositive).le
  · simpa using (lt_eq_false_iff_toRat rfl hfinite).mp hnot

theorem IsRounding.inRange (h : IsRounding v x) (hb : Representable b) (hv : 0 ≤ v) (hvb : v ≤ b) :
    InRange b x :=
  ⟨h.finite, h.le_toRat ⟨0, 0, by norm_num, by norm_num, by norm_num⟩ hv, h.toRat_le hb hvb⟩

theorem maximum_eq_or (x y : Float) : maximum x y = x ∨ maximum x y = y := by
  simp only [maximum]
  split_ifs <;> simp

theorem minimum_eq_or (x y : Float) : minimum x y = x ∨ minimum x y = y := by
  simp only [minimum]
  split_ifs <;> simp

/-! ### Sums -/

theorem abs_le_largest_of_le {n : ℕ} (hn : n ≤ 1023) (hv : 0 ≤ v) (h : v ≤ 2 ^ n) :
    |v| ≤ largest := by
  rw [abs_of_nonneg hv]
  exact h.trans (two_pow_le_largest hn)

theorem InRange.isRounding_add (hx : InRange (2 ^ 60) x) (hy : InRange (2 ^ 60) y) :
    IsRounding (toRat x + toRat y) (x + y) := by
  refine Double.isRounding_add hx.finite hy.finite
    (abs_le_largest_of_le (n := 61) (by norm_num) (add_nonneg hx.nonneg hy.nonneg) ?_)
  linarith [hx.le, hy.le]

theorem InRange.add {n : ℕ} (hn : n ≤ 60) (hx : InRange a x) (hy : InRange b y)
    (h : a + b ≤ 2 ^ n) : InRange (2 ^ n) (x + y) := by
  have hpow : (2 : ℚ) ^ n ≤ 2 ^ 60 := pow_le_pow_right₀ (by norm_num) hn
  have hx' : InRange (2 ^ 60) x := hx.weaken (by linarith [hy.bound_nonneg])
  have hy' : InRange (2 ^ 60) y := hy.weaken (by linarith [hx.bound_nonneg])
  exact (InRange.isRounding_add hx' hy').inRange (representable_two_pow n)
    (add_nonneg hx.nonneg hy.nonneg) (by linarith [hx.le, hy.le])

/-- Beyond `2 ^ (53 + n)` representable numbers are multiples of `2 ^ (n + 1)`. -/
theorem Representable.gap {n : ℕ} (hb : Representable b) (h : 2 ^ (53 + n) < b) :
    2 ^ (53 + n) + 2 ^ (n + 1) ≤ b := by
  obtain ⟨k, f, hk, -, rfl⟩ := hb
  have hk' : (k : ℚ) < 2 ^ 53 := by exact_mod_cast (le_abs_self k).trans_lt hk
  rcases le_or_gt f n with hsmall | hlarge
  · have hpower : (2 : ℚ) ^ f ≤ 2 ^ n := by
      simpa using zpow_le_zpow_right₀ (one_le_two (α := ℚ)) hsmall
    have hle : (k : ℚ) * 2 ^ f ≤ 2 ^ 53 * 2 ^ n :=
      (mul_le_mul_of_nonneg_right hk'.le (two_zpow_pos f).le).trans
        (mul_le_mul_of_nonneg_left hpower (by norm_num))
    rw [pow_add] at h
    exact absurd h hle.not_gt
  · obtain ⟨j, hj⟩ := Int.eq_ofNat_of_zero_le (show 0 ≤ f - (n + 1 : ℕ) by omega)
    have hf : f = (n + 1 : ℕ) + (j : ℤ) := by omega
    have hmultiple : (k : ℚ) * 2 ^ f = 2 ^ (n + 1) * ((k * 2 ^ j : ℤ) : ℚ) := by
      rw [hf, two_zpow_add_natCast, zpow_natCast]
      push_cast
      ring
    have hbound : (2 : ℚ) ^ (53 + n) = 2 ^ (n + 1) * ((2 ^ 52 : ℤ) : ℚ) := by
      push_cast
      ring
    have hpos : (0 : ℚ) < 2 ^ (n + 1) := pow_pos two_pos _
    rw [hmultiple, hbound] at h ⊢
    have hnext : (2 ^ 52 : ℤ) + 1 ≤ k * 2 ^ j := by
      exact_mod_cast lt_of_mul_lt_mul_left h hpos.le
    have hnext' : ((2 ^ 52 : ℤ) : ℚ) + 1 ≤ ((k * 2 ^ j : ℤ) : ℚ) := by exact_mod_cast hnext
    have hscaled := mul_le_mul_of_nonneg_left hnext' hpos.le
    linarith

/-- A term of at most one does not lift a sum above `2 ^ 54`. -/
theorem InRange.add_unit (hx : InRange (2 ^ 54) x) (hy : InRange 1 y) :
    InRange (2 ^ 54) (x + y) := by
  have hround := InRange.isRounding_add (hx.weaken (by norm_num)) (hy.weaken (by norm_num))
  have hsum : InRange (2 ^ 55) (x + y) := hx.add (by norm_num) hy (by norm_num)
  refine ⟨hsum.finite, hsum.nonneg, ?_⟩
  by_contra hgreater
  have hgap : 2 ^ 54 + 2 ^ 2 ≤ toRat (x + y) :=
    (representable_toRat (x + y)).gap (n := 1) (not_le.mp hgreater)
  -- but `2 ^ 54` is closer to the exact sum
  have hnear := hround.nearest _ (representable_two_pow 54)
  have hx54 := hx.le
  have hy1 := hy.le
  rw [abs_of_nonneg (by linarith)] at hnear
  rcases abs_cases ((2 : ℚ) ^ 54 - (toRat x + toRat y)) with ⟨heq, -⟩ | ⟨heq, -⟩ <;> linarith

theorem InRange.toRat_le_add (hx : InRange (2 ^ 54) x) (hy : InRange 1 y) :
    toRat x ≤ toRat (x + y) ∧ toRat y ≤ toRat (x + y) := by
  have hround := InRange.isRounding_add (hx.weaken (by norm_num)) (hy.weaken (by norm_num))
  exact ⟨hround.le_toRat (representable_toRat x) (by linarith [hy.nonneg]),
    hround.le_toRat (representable_toRat y) (by linarith [hx.nonneg])⟩

theorem inRange_foldl_add {xs : List Float} (hx : InRange (2 ^ 54) x)
    (h : ∀ y ∈ xs, InRange 1 y) :
    InRange (2 ^ 54) (xs.foldl (· + ·) x) ∧ toRat x ≤ toRat (xs.foldl (· + ·) x) ∧
      ∀ y ∈ xs, toRat y ≤ toRat (xs.foldl (· + ·) x) := by
  induction xs generalizing x with
  | nil => exact ⟨hx, le_rfl, by simp⟩
  | cons y ys ih =>
      rw [List.forall_mem_cons] at h
      obtain ⟨hrange, hstart, hterms⟩ := ih (hx.add_unit h.1) h.2
      obtain ⟨hleft, hright⟩ := hx.toRat_le_add h.1
      refine ⟨hrange, hleft.trans hstart, ?_⟩
      rw [List.forall_mem_cons]
      exact ⟨hright.trans hstart, hterms⟩

/-- **Sums of probabilities** are finite, whatever their number. -/
theorem inRange_sum {xs : List Float} (h : ∀ y ∈ xs, InRange 1 y) :
    InRange (2 ^ 54) (sum xs) :=
  (inRange_foldl_add (inRange_sumStart (by norm_num)) h).1

/-- No term is greater than the sum. -/
theorem toRat_le_sum {xs : List Float} (h : ∀ y ∈ xs, InRange 1 y) (hy : y ∈ xs) :
    toRat y ≤ toRat (sum xs) :=
  (inRange_foldl_add (inRange_sumStart (by norm_num)) h).2.2 y hy

/-- A sum with a positive term is positive. -/
theorem le_sum_zero_eq_false {xs : List Float} (h : ∀ y ∈ xs, InRange 1 y) (hy : y ∈ xs)
    (hpos : 0 < toRat y) : le (sum xs) zero = false :=
  (le_eq_false_iff_toRat (inRange_sum h).finite rfl).mpr (hpos.trans_le (toRat_le_sum h hy))

/-- Adding to zero keeps the range and does not make less of a double. -/
theorem InRange.zero_add (hx : InRange 1 x) : InRange 1 (zero + x) ∧ toRat x ≤ toRat (zero + x) := by
  refine ⟨?_, (InRange.toRat_le_add (inRange_zero (by norm_num)) hx).2⟩
  simpa using (inRange_zero le_rfl).add (n := 0) (by norm_num) hx (by norm_num)

theorem representable_mul_two_pow {k : ℕ} (hk : k < 2 ^ 53) (n : ℕ) :
    Representable (k * 2 ^ n) :=
  ⟨k, n, by rw [abs_of_nonneg (by positivity)]; exact_mod_cast hk, by omega, by simp⟩

theorem inRange_foldl_add_of_length_le {xs : List Float} {k : ℕ} (hlength : k + xs.length ≤ 64)
    (hx : InRange (k * 2 ^ 54) x) (h : ∀ y ∈ xs, InRange (2 ^ 54) y) :
    InRange (2 ^ 60) (xs.foldl (· + ·) x) := by
  induction xs generalizing x k with
  | nil =>
      have hk : (k : ℚ) ≤ 64 := by exact_mod_cast hlength
      exact hx.weaken (by linarith)
  | cons y ys ih =>
      rw [List.forall_mem_cons] at h
      rw [List.length_cons] at hlength
      have hk : (k : ℚ) ≤ 64 := by exact_mod_cast (by omega : k ≤ 64)
      have hround := InRange.isRounding_add (hx.weaken (by linarith)) (h.1.weaken (by norm_num))
      refine ih (k := k + 1) (by omega) ?_ h.2
      refine hround.inRange (representable_mul_two_pow (by omega) 54)
        (add_nonneg hx.nonneg h.1.nonneg) ?_
      push_cast
      linarith [hx.le, h.1.le]

/-- A sum of a few such sums is finite, too. -/
theorem inRange_sum_of_length_le {xs : List Float} (hlength : xs.length ≤ 64)
    (h : ∀ y ∈ xs, InRange (2 ^ 54) y) : InRange (2 ^ 60) (sum xs) :=
  inRange_foldl_add_of_length_le (k := 0) (by omega) (inRange_sumStart (by simp)) h

/-! ### Quotients, differences and clamped values -/

/-- **A part divided by a positive whole** is in the range from zero to one. -/
theorem InRange.div (hx : InRange a x) (hy : isFinite y = true) (hpos : 0 < toRat y)
    (hle : toRat x ≤ toRat y) : InRange 1 (x / y) := by
  have hquotient : 0 ≤ toRat x / toRat y := div_nonneg hx.nonneg hpos.le
  have hone : toRat x / toRat y ≤ 1 := div_le_one_of_le₀ hle hpos.le
  have hround := isRounding_div hx.finite hy hpos.ne'
    (abs_le_largest_of_le (n := 0) (by norm_num) hquotient (by simpa using hone))
  exact hround.inRange (by simpa using representable_two_pow 0) hquotient hone

theorem InRange.isRounding_sub (hx : InRange a x) (hy : InRange b y) :
    IsRounding (toRat x - toRat y) (x - y) := by
  refine Double.isRounding_sub hx.finite hy.finite (abs_le.mpr ⟨?_, ?_⟩)
  · linarith [hx.nonneg, (abs_le.mp (abs_toRat_le_largest y)).2]
  · linarith [hy.nonneg, (abs_le.mp (abs_toRat_le_largest x)).2]

/-- Raising to zero keeps an upper bound that is not negative. -/
theorem inRange_maximum_zero (hfinite : isFinite x = true) (hle : toRat x ≤ b) (hb : 0 ≤ b) :
    InRange b (maximum x zero) := by
  have hdistance := isDistance_maximum x
  rcases maximum_eq_or x zero with heq | heq <;> rw [heq] at hdistance ⊢
  · exact (inRange_of_lt_zero hfinite (isDistance_iff.mp hdistance).2).weaken hle
  · exact inRange_zero hb

/-- What is not negative is not changed. -/
theorem maximum_zero_eq (hfinite : isFinite x = true) (h : lt x zero = false) :
    maximum x zero = x := by
  have hnumber : ¬x.isNaN = true := Bool.eq_false_iff.mp (isNaN_of_isFinite hfinite)
  exact (if_neg hnumber).trans (if_neg (of_decide_eq_false h))

/-- The greater of two finite doubles. -/
theorem toRat_maximum (hx : isFinite x = true) (hy : isFinite y = true) :
    toRat (maximum x y) = max (toRat x) (toRat y) := by
  have hnumber : ¬x.isNaN = true := Bool.eq_false_iff.mp (isNaN_of_isFinite hx)
  have hmaximum : maximum x y = if lt x y = true then y else x :=
    (if_neg hnumber).trans (by simp only [lt, decide_eq_true_eq])
  rw [hmaximum]
  split
  · rename_i hlt
    exact (max_eq_right ((lt_iff_toRat hx hy).mp hlt).le).symm
  · rename_i hnot
    exact (max_eq_left ((lt_eq_false_iff_toRat hx hy).mp (Bool.eq_false_of_not_eq_true hnot))).symm

/-- A difference raised to zero is in the range of what was subtracted from. -/
theorem InRange.sub (hx : InRange a x) (hy : InRange b y) :
    InRange (toRat x) (maximum (x - y) zero) := by
  have hround := hx.isRounding_sub hy
  exact inRange_maximum_zero hround.finite
    (hround.toRat_le (representable_toRat x) (by linarith [hy.nonneg])) hx.nonneg

/-- What is clamped is in the range from zero to one. -/
theorem inRange_clamp (hx : isFinite x = true) : InRange 1 (clamp zero one x) := by
  have hraised : InRange (max (toRat x) 0) (if lt x zero then zero else x) := by
    cases hlt : lt x zero with
    | true => exact inRange_zero (le_max_right _ _)
    | false => exact (inRange_of_lt_zero hx hlt).weaken (le_max_left _ _)
  simp only [clamp]
  generalize (if lt x zero = true then zero else x) = raised at hraised ⊢
  cases hlt : lt one raised with
  | true => exact inRange_one
  | false =>
      have hle := (lt_eq_false_iff_toRat inRange_one.finite hraised.finite).mp hlt
      exact ⟨hraised.finite, hraised.nonneg, hle.trans inRange_one.le⟩

/-! ### Equal entries are symmetric -/

theorem inRange_magnitude (hx : isFinite x = true) : InRange |toRat x| (magnitude x) := by
  obtain ⟨hfinite, hvalue⟩ := magnitude_of_isFinite hx
  exact ⟨hfinite, by rw [hvalue]; exact abs_nonneg _, hvalue.le⟩

theorem inRange_slack : InRange 1 slack := by
  have hslack : unpacked (slack : Float) =
      .finite .positive 4951760157141521 (-92) (by decide) := by
    rfl
  refine ⟨rfl, ?_, ?_⟩ <;> rw [toRat, hslack, value] <;>
    norm_num [Float.Model.UnpackedFloat.Sign.apply]

/-- An entry differs from itself by nothing. -/
theorem isAsymmetric_self_of_isFinite (hx : isFinite x = true) : ScoreMatrix.isAsymmetric x x = false := by
  have hlargest : (1 : ℚ) ≤ largest := by simpa using two_pow_le_largest (n := 0) (by norm_num)
  have hx' : InRange largest (magnitude x) := (inRange_magnitude hx).weaken (abs_toRat_le_largest x)
  have hscale : InRange largest (maximum (maximum (magnitude x) (magnitude x)) one) := by
    rcases maximum_eq_or (magnitude x) (magnitude x) with h | h <;> rw [h] <;>
      rcases maximum_eq_or (magnitude x) one with h | h <;> rw [h] <;>
      first | exact hx' | exact inRange_one.weaken hlargest
  have hproduct : 0 ≤ toRat slack * toRat (maximum (maximum (magnitude x) (magnitude x)) one) ∧
      toRat slack * toRat (maximum (maximum (magnitude x) (magnitude x)) one) ≤ largest :=
    ⟨mul_nonneg inRange_slack.nonneg hscale.nonneg,
      (mul_le_of_le_one_left hscale.nonneg inRange_slack.le).trans hscale.le⟩
  have htolerance := (isRounding_mul inRange_slack.finite hscale.finite
    (by rw [abs_of_nonneg hproduct.1]; exact hproduct.2)).inRange representable_largest
      hproduct.1 hproduct.2
  have hzero : Representable 0 := ⟨0, 0, by norm_num, by norm_num, by norm_num⟩
  have hdifference : IsRounding 0 (x - x) := by
    have hround := isRounding_sub hx hx (by simpa using zero_le_one.trans hlargest)
    rwa [sub_self] at hround
  have hmagnitude := inRange_magnitude hdifference.finite
  rw [hdifference.toRat_eq hzero, abs_zero] at hmagnitude
  simp only [ScoreMatrix.isAsymmetric]
  rw [lt_eq_false_iff_toRat htolerance.finite hmagnitude.finite]
  exact hmagnitude.le.trans htolerance.nonneg

end BlockAffinity.Double
