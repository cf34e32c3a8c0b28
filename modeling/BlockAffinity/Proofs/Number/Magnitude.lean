import BlockAffinity.Proofs.Number.Counting
import BlockAffinity.Proofs.Number.RelativeError

/-!
# BlockAffinity.Proofs.Number.Magnitude

**Sums and means that stay in a range.** A sum of distances is finite as long as their number times a
bound stays away from the largest double, since a factor for each rounding does not even double it
(`inRange_sum_of_le`). Doubles of either sign that are not larger than one have a mean that is not
larger than one, however it is rounded: their partial sums are bounded by whole numbers, which are
doubles themselves (`within_mean`). What is clamped to the range from -1 to 1 is in it, if it is a
number at all (`within_clamp`).
-/

namespace BlockAffinity.Double

open Scalar

variable {x y : Float} {a b v : ℚ}

/-! ### Sums of distances -/

/-- A running sum of doubles up to `b` after `k` of them. -/
theorem inRange_foldl_add_of_le {xs : List Float} {k : ℕ} (hb : 0 ≤ b)
    (hlimit : (k + xs.length : ℕ) * b * (1 + unitRoundoff) ^ (k + xs.length) < 2 ^ 1023)
    (hx : InRange (k * b * (1 + unitRoundoff) ^ k) x) (h : ∀ y ∈ xs, InRange b y) :
    InRange ((k + xs.length : ℕ) * b * (1 + unitRoundoff) ^ (k + xs.length))
      (xs.foldl (· + ·) x) := by
  have hgrowth : 1 ≤ 1 + unitRoundoff := by linarith [unitRoundoff_pos]
  induction xs generalizing x k with
  | nil => simpa using hx
  | cons y ys ih =>
      rw [List.forall_mem_cons] at h
      rw [List.length_cons, ← Nat.add_assoc, Nat.add_right_comm] at hlimit ⊢
      -- the next bound leaves room for one more term and one more rounding
      have hnext : (k * b * (1 + unitRoundoff) ^ k + b) * (1 + unitRoundoff) ≤
          (k + 1 : ℕ) * b * (1 + unitRoundoff) ^ (k + 1) := by
        have hterm : b ≤ b * (1 + unitRoundoff) ^ k := le_mul_of_one_le_right hb (one_le_pow₀ hgrowth)
        calc (k * b * (1 + unitRoundoff) ^ k + b) * (1 + unitRoundoff)
            ≤ (k * b * (1 + unitRoundoff) ^ k + b * (1 + unitRoundoff) ^ k) * (1 + unitRoundoff) :=
              mul_le_mul_of_nonneg_right (add_le_add le_rfl hterm) (by linarith)
          _ = (k + 1 : ℕ) * b * (1 + unitRoundoff) ^ (k + 1) := by
              push_cast
              ring
      have hlast : (k + 1 : ℕ) * b * (1 + unitRoundoff) ^ (k + 1) < 2 ^ 1023 := by
        refine lt_of_le_of_lt ?_ hlimit
        refine mul_le_mul (mul_le_mul_of_nonneg_right ?_ hb)
          (pow_le_pow_right₀ hgrowth (Nat.le_add_right _ _)) (pow_nonneg (by linarith) _)
          (mul_nonneg (Nat.cast_nonneg _) hb)
        exact_mod_cast Nat.le_add_right _ _
      have hsum : toRat x + toRat y < 2 ^ 1023 := by
        refine lt_of_le_of_lt ?_ (hnext.trans_lt hlast)
        exact (add_le_add hx.le h.1.le).trans
          (le_mul_of_one_le_right (add_nonneg hx.bound_nonneg hb) hgrowth)
      have hwide : k * b * (1 + unitRoundoff) ^ k ≤ 2 ^ 1023 ∧ b ≤ 2 ^ 1023 := by
        have hboth := le_mul_of_one_le_right (add_nonneg hx.bound_nonneg hb) hgrowth
        exact ⟨(le_add_of_nonneg_right hb).trans (hboth.trans (hnext.trans hlast.le)),
          (le_add_of_nonneg_left hx.bound_nonneg).trans (hboth.trans (hnext.trans hlast.le))⟩
      obtain ⟨hrange, hle⟩ := toRat_add_le (hx.weaken hwide.1) (h.1.weaken hwide.2) hsum
      refine ih (k := k + 1) hlimit ⟨hrange.finite, hrange.nonneg, hle.trans (le_trans ?_ hnext)⟩ h.2
      exact mul_le_mul_of_nonneg_right (add_le_add hx.le h.1.le) (by linarith)

/-- **Sums that stay away from the largest double** are finite. -/
theorem inRange_sum_of_le {xs : List Float} {n : ℕ} (hlength : xs.length ≤ n) (hn : n < 2 ^ 30)
    (hfits : n * b ≤ 2 ^ 1021) (hb : 0 ≤ b) (h : ∀ y ∈ xs, InRange b y) :
    InRange (2 ^ 1022) (sum xs) := by
  have hgrown : (xs.length : ℚ) * b * (1 + unitRoundoff) ^ xs.length ≤ 2 ^ 1022 := by
    have htwo := one_add_pow_le_two unitRoundoff_pos.le
      (natCast_mul_unitRoundoff_lt (k := xs.length) (by omega)).le
    calc (xs.length : ℚ) * b * (1 + unitRoundoff) ^ xs.length
        ≤ n * b * 2 :=
          mul_le_mul (mul_le_mul_of_nonneg_right (by exact_mod_cast hlength) hb) htwo
            (pow_nonneg (by linarith [unitRoundoff_pos]) _) (mul_nonneg (Nat.cast_nonneg n) hb)
      _ ≤ 2 ^ 1021 * 2 := mul_le_mul_of_nonneg_right hfits (by norm_num)
      _ = 2 ^ 1022 := (pow_succ 2 1021).symm
  have hsum := inRange_foldl_add_of_le (k := 0) (x := sumStart) hb (by
      rw [Nat.zero_add]
      exact hgrown.trans_lt (pow_lt_pow_right₀ one_lt_two (by norm_num)))
    (by simpa using inRange_sumStart le_rfl) h
  rw [Nat.zero_add] at hsum
  exact hsum.weaken hgrown

/-- Dividing by a count stays in the range. -/
theorem InRange.div_ofNat {n : ℕ} (hx : InRange b x) (hpos : 0 < n) (hn : n ≤ 2 ^ 53) :
    InRange b (x / ofNat n) := by
  have hone : (1 : ℚ) ≤ n := by exact_mod_cast hpos
  have hcount : toRat (ofNat n : Float) = n := toRat_ofNat hn
  have hle : toRat x / n ≤ toRat x := div_le_self hx.nonneg hone
  have hround := isRounding_div hx.finite (isRounding_ofNat_of_le hn).finite
    (by rw [hcount]; exact (zero_lt_one.trans_le hone).ne') (by
      rw [hcount, abs_of_nonneg (div_nonneg hx.nonneg (Nat.cast_nonneg n))]
      exact hle.trans ((le_abs_self _).trans (abs_toRat_le_largest x)))
  rw [hcount] at hround
  exact (hround.inRange (representable_toRat x) (div_nonneg hx.nonneg (Nat.cast_nonneg n))
    hle).weaken hx.le

/-! ### Doubles up to a magnitude -/

/-- A finite double that is at most as large as a bound, of either sign. -/
structure Within (bound : ℚ) (x : Float) : Prop where
  finite : isFinite x = true
  magnitude_le : |toRat x| ≤ bound

theorem Within.weaken (h : Within a x) (hab : a ≤ b) : Within b x :=
  ⟨h.finite, h.magnitude_le.trans hab⟩

theorem InRange.within (h : InRange b x) : Within b x :=
  ⟨h.finite, by rw [abs_of_nonneg h.nonneg]; exact h.le⟩

theorem IsRounding.within (h : IsRounding v x) (hb : Representable b) (hv : |v| ≤ b) : Within b x :=
  ⟨h.finite, abs_le.mpr ⟨h.le_toRat hb.neg (abs_le.mp hv).1, h.toRat_le hb (abs_le.mp hv).2⟩⟩

theorem Within.add (hx : Within a x) (hy : Within b y) (h : Representable (a + b))
    (hle : a + b ≤ largest) : Within (a + b) (x + y) := by
  have hsum : |toRat x + toRat y| ≤ a + b :=
    (abs_add_le _ _).trans (add_le_add hx.magnitude_le hy.magnitude_le)
  exact (isRounding_add hx.finite hy.finite (hsum.trans hle)).within h hsum

/-- The first `k` of several doubles that are not larger than one do not add up to more than `k`. -/
theorem within_foldl_add {xs : List Float} {k : ℕ} (hlength : k + xs.length ≤ 2 ^ 53)
    (hx : Within k x) (h : ∀ y ∈ xs, Within 1 y) :
    Within (k + xs.length : ℕ) (xs.foldl (· + ·) x) := by
  induction xs generalizing x k with
  | nil => simpa using hx
  | cons y ys ih =>
      rw [List.forall_mem_cons] at h
      rw [List.length_cons, ← Nat.add_assoc, Nat.add_right_comm] at hlength ⊢
      have hcast : (k : ℚ) + 1 = (k + 1 : ℕ) := by push_cast; rfl
      have hle : ((k + 1 : ℕ) : ℚ) ≤ largest :=
        (natCast_le_two_pow (n := 53) (by omega)).trans (two_pow_le_largest (by norm_num))
      have hnext := hx.add h.1 (by rw [hcast]; exact representable_of_le (by omega))
        (by rw [hcast]; exact hle)
      rw [hcast] at hnext
      exact ih hlength hnext h.2

/-- **The mean of doubles that are not larger than one** is not larger than one. -/
theorem within_mean {xs : List Float} (hpos : 0 < xs.length) (hlength : xs.length ≤ 2 ^ 53)
    (h : ∀ y ∈ xs, Within 1 y) : Within 1 (sum xs / ofNat xs.length) := by
  have hsum : Within xs.length (sum xs) := by
    have hfold := within_foldl_add (k := 0) (x := sumStart) (by omega)
      ⟨rfl, by rw [toRat_sumStart, abs_zero]; exact Nat.cast_nonneg 0⟩ h
    rwa [Nat.zero_add] at hfold
  have hcount : toRat (ofNat xs.length : Float) = xs.length := toRat_ofNat hlength
  have hpos' : (0 : ℚ) < xs.length := by exact_mod_cast hpos
  have hquotient : |toRat (sum xs) / toRat (ofNat xs.length : Float)| ≤ 1 := by
    rw [hcount, abs_div, abs_of_pos hpos']
    exact div_le_one_of_le₀ hsum.magnitude_le hpos'.le
  have hone : (1 : ℚ) ≤ largest := by simpa using two_pow_le_largest (n := 0) (by norm_num)
  exact (isRounding_div hsum.finite (isRounding_ofNat_of_le hlength).finite
    (by rw [hcount]; exact hpos'.ne') (hquotient.trans hone)).within
      (by simpa using representable_two_pow 0) hquotient

theorem toRat_neg_one : toRat (-one) = -1 := by
  have hnegative : unpacked (-one : Float) = .finite .negative (2 ^ 52) (-52) (by decide) := by rfl
  rw [toRat, hnegative, value_finite_negative, value]
  norm_num [Float.Model.UnpackedFloat.Sign.apply]

/-- What is clamped is not larger than one, unless it is no number. -/
theorem within_clamp (hx : isFinite x = true) : Within 1 (clamp (-one) one x) := by
  have hone : isFinite (one : Float) = true := rfl
  have hnegative : isFinite (-one : Float) = true := rfl
  simp only [clamp]
  obtain ⟨raised, hraised⟩ : ∃ raised, raised = if lt x (-one) then -one else x := ⟨_, rfl⟩
  rw [← hraised]
  have hlow : isFinite raised = true ∧ -1 ≤ toRat raised := by
    rw [hraised]
    split
    · exact ⟨hnegative, toRat_neg_one.ge⟩
    · rename_i hnot
      refine ⟨hx, ?_⟩
      rw [← toRat_neg_one]
      exact (lt_eq_false_iff_toRat hx hnegative).mp (eq_false_of_ne_true hnot)
  split
  · exact ⟨hone, by rw [toRat_one, abs_one]⟩
  · rename_i hnot
    have hhigh := (lt_eq_false_iff_toRat hone hlow.1).mp (eq_false_of_ne_true hnot)
    rw [toRat_one] at hhigh
    exact ⟨hlow.1, abs_le.mpr ⟨hlow.2, hhigh⟩⟩

/-- Such a double compares with both ends of the range. -/
theorem Within.le_one (h : Within 1 x) : le (-one) x = true ∧ le x one = true := by
  obtain ⟨hlow, hhigh⟩ := abs_le.mp h.magnitude_le
  constructor
  · by_contra hnot
    have hlt := (le_eq_false_iff_toRat rfl h.finite).mp (eq_false_of_ne_true hnot)
    rw [toRat_neg_one] at hlt
    linarith
  · by_contra hnot
    have hlt := (le_eq_false_iff_toRat h.finite rfl).mp (eq_false_of_ne_true hnot)
    rw [toRat_one] at hlt
    linarith

end BlockAffinity.Double
