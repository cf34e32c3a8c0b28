import BlockAffinity.Proofs.Number.Counting
import BlockAffinity.Proofs.Number.Range
import BlockAffinity.Proofs.Number.Ties

/-!
# BlockAffinity.Proofs.ScoreMatrix.Tolerance

**The tolerance does not take sides.** Rounding treats numbers of either sign alike, so two doubles have
the same difference in either order but for its sign (`abs_sub_comm`). Two entries of a matrix that are
finite and not negative therefore agree in one order exactly if they do in the other
(`isAsymmetric_comm_of_inRange`), and they agree exactly if their difference is at most the tolerance
(`isAsymmetric_eq_not_le`): none of the doubles in this comparison is a NaN.
-/

namespace BlockAffinity.Double

open Float.Model Float.Model.UnpackedFloat

/-! ### Differences -/

theorem abs_roundWithAccuracy (spec : Format) (s r : Sign) (m : ℕ) (e : ℤ) (accuracy : Accuracy) :
    (roundWithAccuracy spec s m e accuracy).abs = (roundWithAccuracy spec r m e accuracy).abs := by
  unfold roundWithAccuracy
  dsimp only
  split <;> rfl

/-- The sign of a mantissa does not matter for the magnitude of what it is rounded to. -/
theorem abs_normalize_neg (spec : Format) (k e : ℤ) (s r : Sign) :
    (UnpackedFloat.normalize spec (-k) e s).abs = (UnpackedFloat.normalize spec k e r).abs := by
  unfold UnpackedFloat.normalize
  rcases lt_trichotomy k 0 with hneg | rfl | hpos
  · rw [compare_gt_iff_gt.mpr (neg_pos.mpr hneg), compare_lt_iff_lt.mpr hneg]
    exact abs_roundWithAccuracy ..
  · rfl
  · rw [compare_lt_iff_lt.mpr (neg_neg_of_pos hpos), compare_gt_iff_gt.mpr hpos, neg_neg]
    exact abs_roundWithAccuracy ..

/-- **A difference has the same magnitude in either order.** -/
theorem abs_sub_comm (spec : Format) (x y : UnpackedFloat) :
    (UnpackedFloat.sub spec x y).abs = (UnpackedFloat.sub spec y x).abs := by
  rcases x with s | _ | s | ⟨s, m, e, hm⟩ <;> rcases y with r | _ | r | ⟨r, k, f, hk⟩
  case finite.finite =>
    unfold UnpackedFloat.sub
    dsimp only
    rw [min_comm f e, ← neg_sub (s.apply _)]
    exact (abs_normalize_neg ..).symm
  -- without two mantissas nothing is rounded
  all_goals first | rfl | (cases s <;> cases r <;> rfl)

open Scalar ScoreMatrix

section

variable {x y : Float} {a b : ℚ} (hx : InRange a x) (hy : InRange b y)

include hx hy

theorem InRange.unpacked_sub_eq :
    unpacked (x - y) = UnpackedFloat.sub .binary64 (unpacked x) (unpacked y) := by
  have hrounds : Rounds (toRat x - toRat y)
      (UnpackedFloat.sub .binary64 (unpacked x) (unpacked y)) :=
    rounds_sub hx.finite hy.finite (canonical_unpacked x) (canonical_unpacked y)
  have hbound : |toRat x - toRat y| ≤ largest := by
    have hx' := (abs_le.mp (abs_toRat_le_largest x)).2
    have hy' := (abs_le.mp (abs_toRat_le_largest y)).2
    exact abs_le.mpr ⟨by linarith [hx.nonneg], by linarith [hy.nonneg]⟩
  rw [unpacked_sub, unpack_pack_of_canonical hrounds.finite hrounds.canonical
    (hrounds.encodable hbound)]

theorem InRange.abs_toRat_sub_comm : |toRat (x - y)| = |toRat (y - x)| := by
  rw [toRat, toRat, hx.unpacked_sub_eq hy, hy.unpacked_sub_eq hx, ← value_abs, ← value_abs, abs_sub_comm]

/-- The size of a difference, as it is compared with the tolerance. -/
theorem InRange.magnitude_sub :
    isFinite (magnitude (x - y)) = true ∧ toRat (magnitude (x - y)) = |toRat (x - y)| :=
  magnitude_of_isFinite (hx.isRounding_sub hy).finite

end

/-! ### The tolerance -/

theorem isFinite_maximum {x y : Float} (hx : isFinite x = true) (hy : isFinite y = true) :
    isFinite (maximum x y) = true := by
  rcases maximum_eq_or x y with h | h <;> rw [h]
  exacts [hx, hy]

section

variable {x y : Float} {a b : ℚ} (hx : InRange a x) (hy : InRange b y)

include hx hy

/-- What the slack is multiplied by: the larger entry, or one. -/
theorem InRange.scale : isFinite (maximum one (maximum x y)) = true ∧
    toRat (maximum one (maximum x y)) = max 1 (max (toRat x) (toRat y)) := by
  have hlarger := isFinite_maximum hx.finite hy.finite
  refine ⟨isFinite_maximum inRange_one.finite hlarger, ?_⟩
  rw [toRat_maximum inRange_one.finite hlarger, toRat_maximum hx.finite hy.finite, toRat_one]

theorem InRange.scale_comm : maximum one (maximum x y) = maximum one (maximum y x) := by
  obtain ⟨hfinite, hvalue⟩ := hx.scale hy
  obtain ⟨hfinite', hvalue'⟩ := hy.scale hx
  refine ext_toRat hfinite hfinite' (by rw [hvalue, hvalue', max_comm (toRat x)]) ?_
  rw [hvalue]
  exact (lt_max_of_lt_left one_pos).ne'

/-- Entries that are not negative are their own magnitudes. -/
theorem InRange.scale_eq :
    maximum (maximum (magnitude x) (magnitude y)) one = maximum one (maximum x y) := by
  obtain ⟨hfinite, hvalue⟩ := hx.scale hy
  obtain ⟨hfinitex, hvaluex⟩ := magnitude_of_isFinite hx.finite
  obtain ⟨hfinitey, hvaluey⟩ := magnitude_of_isFinite hy.finite
  have hlarger := isFinite_maximum hfinitex hfinitey
  have hscale : toRat (maximum (maximum (magnitude x) (magnitude y)) one) =
      max 1 (max (toRat x) (toRat y)) := by
    rw [toRat_maximum hlarger inRange_one.finite, toRat_maximum hfinitex hfinitey, hvaluex, hvaluey,
      abs_of_nonneg hx.nonneg, abs_of_nonneg hy.nonneg, toRat_one, max_comm]
  refine ext_toRat (isFinite_maximum hlarger inRange_one.finite) hfinite (hscale.trans hvalue.symm) ?_
  rw [hscale]
  exact (lt_max_of_lt_left one_pos).ne'

/-- The tolerance does not overflow. -/
theorem InRange.isFinite_tolerance : isFinite (slack * maximum one (maximum x y)) = true := by
  obtain ⟨hfinite, hvalue⟩ := hx.scale hy
  have hscale : 0 ≤ toRat (maximum one (maximum x y)) := by
    rw [hvalue]
    exact le_max_of_le_left zero_le_one
  refine (isRounding_mul inRange_slack.finite hfinite ?_).finite
  rw [abs_of_nonneg (mul_nonneg inRange_slack.nonneg hscale)]
  exact (mul_le_of_le_one_left hscale inRange_slack.le).trans (abs_le.mp (abs_toRat_le_largest _)).2

/-- **Two entries agree** if their difference is at most the tolerance. -/
theorem isAsymmetric_eq_not_le :
    isAsymmetric x y = !le (magnitude (x - y)) (slack * maximum one (maximum x y)) := by
  have hdifference := (hx.magnitude_sub hy).1
  have htolerance := hx.isFinite_tolerance hy
  rw [isAsymmetric, hx.scale_eq hy, Bool.eq_iff_iff, Bool.not_eq_true',
    lt_iff_toRat htolerance hdifference, le_eq_false_iff_toRat hdifference htolerance]

/-- **Agreement does not depend on the order** of the entries. -/
theorem isAsymmetric_comm_of_inRange : isAsymmetric x y = isAsymmetric y x := by
  obtain ⟨hdifference, hvalue⟩ := hx.magnitude_sub hy
  obtain ⟨hdifference', hvalue'⟩ := hy.magnitude_sub hx
  have htolerance := hx.isFinite_tolerance hy
  rw [isAsymmetric, isAsymmetric, hx.scale_eq hy, hy.scale_eq hx, ← hx.scale_comm hy, Bool.eq_iff_iff,
    lt_iff_toRat htolerance hdifference, lt_iff_toRat htolerance hdifference', hvalue, hvalue',
    hx.abs_toRat_sub_comm hy]

end

end BlockAffinity.Double
