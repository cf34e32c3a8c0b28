import BlockAffinity.Json.Number
import BlockAffinity.Proofs.Decimal.Binary64
import BlockAffinity.Proofs.Number.RelativeError

/-!
# BlockAffinity.Proofs.Json.Scaling

**How far a scaled significand is off.** A power of ten is the nearest double to it
(`isRounding_powerOfTen`), up to `10 ^ 22` without an error. `Near` says how far a double may be from
a number, in a fraction of the number and in an absolute part for the subnormal range; each
multiplication and each division by a power of ten adds up to four roundings to it
(`Near.mul_powerOfTen`, `Near.div_powerOfTen`). A significand is scaled in two steps at most, so it
ends up within nine roundings (`near_scale?`).

Where the significand and the power are both exact there is one rounding alone
(`isRounding_scale?`).
-/

namespace BlockAffinity.Json

open Double Scalar Float.Model Float.Model.UnpackedFloat

/-! ### Powers of ten -/

theorem ten_pow_le_largest {k : ℕ} (hk : k ≤ 308) : (10 : ℚ) ^ k ≤ largest := by
  have hpower : (10 : ℚ) ^ 308 ≤ largest := by
    have hnat : 10 ^ 308 ≤ 9007199254740991 * 2 ^ 971 := by decide +kernel
    have hcast := Nat.cast_le (α := ℚ).mpr hnat
    simp only [Nat.cast_pow, Nat.cast_mul, Nat.cast_ofNat] at hcast
    have hmantissa : (2 : ℚ) ^ 53 - 1 = 9007199254740991 := by norm_num
    rwa [largest, hmantissa, zpow_ofNat]
  exact (pow_le_pow_right₀ (by norm_num) hk).trans hpower

theorem ofScientific_one {k : ℕ} (hk : k ≤ 308) :
    UnpackedFloat.ofScientific .binary64 1 k = UnpackedFloat.ofScientific .binary64 (10 ^ k) 0 := by
  have hhigh : ¬(k : ℤ) > 2 ^ Format.binary64.exponentBits := by
    have hbits : (2 : ℤ) ^ Format.binary64.exponentBits = 2048 := by decide
    omega
  have hlow : ¬(k : ℤ) < -(2 ^ Format.binary64.exponentBits + (1 : ℕ).log2) := by
    have hbits : (2 : ℤ) ^ Format.binary64.exponentBits = 2048 := by decide
    omega
  rw [ofScientific_eq (pow_ne_zero k (by norm_num))]
  unfold UnpackedFloat.ofScientific
  rw [dif_neg one_ne_zero, if_neg hhigh, if_neg hlow, if_pos (Int.natCast_nonneg k)]
  simp only [UnpackedFloat.mul, Int.toNat_natCast, Int.add_zero]
  rw [Nat.shiftLeft_eq, Nat.shiftLeft_eq, Nat.one_mul, Nat.mul_comm]
  rfl

/-- **A power of ten** is converted as a natural number is. -/
theorem powerOfTen_eq {k : ℕ} (hk : k ≤ 308) : powerOfTen k = Float.ofNat (10 ^ k) := by
  rcases Nat.lt_or_ge k 23 with hlt | hge
  · -- these are read off a table
    have htable : ∀ k < 23, Decimal.Binary64.ofFloat (powerOfTen k) =
        Decimal.Binary64.ofFloat (Float.ofNat (10 ^ k)) := by
      decide +kernel
    have hfinite : isFinite (ofNat (10 ^ k) : Float) = true :=
      (isRounding_ofNat (by exact_mod_cast ten_pow_le_largest hk)).finite
    obtain ⟨negative, m, e, hdecodes⟩ := Decimal.exists_decodes hfinite
    exact (Decimal.decodes_of_ofFloat ((htable k hlt).trans hdecodes.ofFloat)).unique hdecodes
  · have hlarge : 2 ^ 53 ≤ 10 ^ k :=
      (by norm_num : 2 ^ 53 ≤ 10 ^ 23).trans (Nat.pow_le_pow_right (by norm_num) hge)
    rw [ofNat_of_le hlarge]
    unfold powerOfTen OfScientific.ofScientific instOfScientificFloat Float.ofScientific
    dsimp only
    rw [dif_neg (by omega), Float.Model.ofScientific, Float.Model.ofScientific, ← ofScientific_one hk]
    rfl

/-- **A power of ten** is the nearest double. -/
theorem isRounding_powerOfTen {k : ℕ} (hk : k ≤ 308) : IsRounding (10 ^ k) (powerOfTen k) := by
  have hround := isRounding_ofNat (n := 10 ^ k) (by exact_mod_cast ten_pow_le_largest hk)
  rw [powerOfTen_eq hk]
  exact_mod_cast hround

/-- The small powers are doubles. -/
theorem toRat_powerOfTen {k : ℕ} (hk : k ≤ 22) : toRat (powerOfTen k) = 10 ^ k := by
  refine (isRounding_powerOfTen (by omega)).toRat_eq ⟨5 ^ k, k, ?_, by omega, ?_⟩
  · have hpower : (5 : ℤ) ^ k ≤ 5 ^ 22 := pow_le_pow_right₀ (by norm_num) hk
    rw [abs_of_nonneg (by positivity)]
    exact hpower.trans_lt (by norm_num)
  · rw [zpow_natCast, Int.cast_pow, ← mul_pow]
    norm_num

theorem one_le_toRat_powerOfTen {k : ℕ} (hk : k ≤ 308) : 1 ≤ toRat (powerOfTen k) :=
  (isRounding_powerOfTen hk).le_toRat (by simpa using representable_two_pow 0)
    (one_le_pow₀ (by norm_num))

theorem abs_toRat_powerOfTen_sub_le {k : ℕ} (hk : k ≤ 308) :
    |toRat (powerOfTen k) - 10 ^ k| ≤ 10 ^ k * unitRoundoff := by
  have hone : (1 : ℚ) ≤ 10 ^ k := one_le_pow₀ (by norm_num)
  have hnormal : (2 : ℚ) ^ (-1022 : ℤ) ≤ 1 := zpow_le_one_of_nonpos₀ (by norm_num) (by norm_num)
  exact (isRounding_powerOfTen hk).abs_sub_le (hnormal.trans hone)

/-- Its inverse is near the inverse power. -/
theorem abs_inv_toRat_powerOfTen_sub_le {k : ℕ} (hk : k ≤ 308) :
    |(toRat (powerOfTen k))⁻¹ - (10 ^ k)⁻¹| ≤ (10 ^ k)⁻¹ * (2 * unitRoundoff) := by
  have herror := abs_toRat_powerOfTen_sub_le hk
  have hone := one_le_toRat_powerOfTen hk
  generalize toRat (powerOfTen k) = p at *
  have hten : (0 : ℚ) < 10 ^ k := by positivity
  generalize (10 : ℚ) ^ k = t at *
  have hpos : 0 < p := by linarith
  have hhalf : t ≤ 2 * p := by
    have hlow := (abs_le.mp herror).1
    have hsmall : t * unitRoundoff ≤ t / 2 := by
      rw [div_eq_mul_inv]
      exact mul_le_mul_of_nonneg_left (by norm_num [unitRoundoff]) hten.le
    linarith
  have hdifference : p⁻¹ - t⁻¹ = (t - p) * (p⁻¹ * t⁻¹) := by
    field_simp
  have hfactor : 0 ≤ p⁻¹ * t⁻¹ := by positivity
  rw [hdifference, abs_mul, abs_of_nonneg hfactor, abs_sub_comm]
  calc |p - t| * (p⁻¹ * t⁻¹) ≤ t * unitRoundoff * (p⁻¹ * t⁻¹) :=
        mul_le_mul_of_nonneg_right herror hfactor
    _ = t * p⁻¹ * (t⁻¹ * unitRoundoff) := by ring
    _ ≤ 2 * (t⁻¹ * unitRoundoff) := by
        refine mul_le_mul_of_nonneg_right ?_ (mul_nonneg (by positivity) unitRoundoff_pos.le)
        rw [← div_eq_mul_inv, div_le_iff₀ hpos]
        exact hhalf
    _ = t⁻¹ * (2 * unitRoundoff) := by ring

/-! ### Roundings in the whole range -/

/-- Below the range of normal doubles the nearest one is at most half the smallest one away. -/
theorem abs_sub_le_add {x : Float} {v : ℚ} (h : IsRounding v x) (hv : 0 ≤ v) :
    |toRat x - v| ≤ v * unitRoundoff + smallest / 2 := by
  have hunit := unitRoundoff_pos
  have hsmallest := smallest_pos
  rcases le_or_gt (2 ^ (-1022 : ℤ)) v with hnormal | hsmall
  · exact (h.abs_sub_le hnormal).trans (by linarith)
  · obtain ⟨b, hb, hnear⟩ := exists_representable_on_grid (e := -1074) le_rfl hv
      (hsmall.trans (zpow_lt_zpow_right₀ one_lt_two (by norm_num)))
    calc |toRat x - v| ≤ |b - v| := h.nearest b hb
      _ ≤ 1 / 2 * smallest := hnear
      _ ≤ v * unitRoundoff + smallest / 2 := by linarith [mul_nonneg hv hunit.le]

/-- A double that is near a number, up to a fraction of the number and an absolute part. -/
structure Near (v relative absolute : ℚ) (x : Float) : Prop where
  finite : isFinite x = true
  nonneg : 0 ≤ toRat x
  near : |toRat x - v| ≤ v * relative + absolute

variable {x z : Float} {v w g relative absolute : ℚ}

theorem Near.weaken {relative' absolute' : ℚ} (hx : Near v relative absolute x) (hv : 0 ≤ v)
    (hrelative : relative ≤ relative') (habsolute : absolute ≤ absolute') :
    Near v relative' absolute' x :=
  ⟨hx.finite, hx.nonneg, hx.near.trans (add_le_add (mul_le_mul_of_nonneg_left hrelative hv) habsolute)⟩

/-- **One multiplication** with a number that is known up to two roundings. -/
theorem Near.scale (hx : Near v relative absolute x) (hv : 0 ≤ v) (hw : 0 < w)
    (hg : |g - w| ≤ w * (2 * unitRoundoff)) (hrelative : 0 ≤ relative)
    (hsmall : relative ≤ 1 / 16) (habsolute : 0 ≤ absolute) (hz : IsRounding (toRat x * g) z) :
    Near (v * w) (relative + 4 * unitRoundoff) (2 * absolute * w + smallest / 2) z := by
  have hunit := unitRoundoff_pos
  obtain ⟨hlow, hhigh⟩ := abs_le.mp hg
  have hg0 : 0 ≤ g := by
    have htwo : w * (2 * unitRoundoff) ≤ w := mul_le_of_le_one_right hw.le (by norm_num [unitRoundoff])
    linarith
  have hproduct0 : 0 ≤ toRat x * g := mul_nonneg hx.nonneg hg0
  obtain ⟨error, herror⟩ : ∃ error, error =
      (v * relative + absolute) * (w * (1 + 2 * unitRoundoff)) + v * (w * (2 * unitRoundoff)) :=
    ⟨_, rfl⟩
  have hproduct : |toRat x * g - v * w| ≤ error := by
    have hsplit : toRat x * g - v * w = (toRat x - v) * g + v * (g - w) := by ring
    calc |toRat x * g - v * w| ≤ |toRat x - v| * g + v * |g - w| := by
          rw [hsplit]
          refine (abs_add_le _ _).trans_eq ?_
          rw [abs_mul, abs_mul, abs_of_nonneg hg0, abs_of_nonneg hv]
      _ ≤ error := by
          rw [herror]
          refine add_le_add (mul_le_mul hx.near ?_ hg0 ?_) (mul_le_mul_of_nonneg_left hg hv)
          · linarith
          · exact add_nonneg (mul_nonneg hv hrelative) habsolute
  have hround := abs_sub_le_add hz hproduct0
  have hle : toRat x * g ≤ v * w + error := by linarith [(abs_le.mp hproduct).2]
  refine ⟨hz.finite, hz.le_toRat (b := 0) ⟨0, 0, by norm_num, by norm_num, by simp⟩ hproduct0, ?_⟩
  -- the two factors that the parts of the error have grown by
  have hfirst : unitRoundoff + (relative * (1 + 2 * unitRoundoff) + 2 * unitRoundoff) *
      (1 + unitRoundoff) ≤ relative + 4 * unitRoundoff := by
    norm_num [unitRoundoff]
    linarith
  have hsecond : (1 + 2 * unitRoundoff) * (1 + unitRoundoff) ≤ 2 := by norm_num [unitRoundoff]
  calc |toRat z - v * w| ≤ |toRat z - toRat x * g| + |toRat x * g - v * w| := abs_sub_le _ _ _
    _ ≤ (v * w + error) * unitRoundoff + smallest / 2 + error :=
        add_le_add (hround.trans (by gcongr)) hproduct
    _ = v * w * (unitRoundoff + (relative * (1 + 2 * unitRoundoff) + 2 * unitRoundoff) *
          (1 + unitRoundoff)) +
        absolute * w * ((1 + 2 * unitRoundoff) * (1 + unitRoundoff)) + smallest / 2 := by
        rw [herror]
        ring
    _ ≤ v * w * (relative + 4 * unitRoundoff) + absolute * w * 2 + smallest / 2 := by
        gcongr
    _ = v * w * (relative + 4 * unitRoundoff) + (2 * absolute * w + smallest / 2) := by ring

theorem Near.mul_powerOfTen {n : ℕ} (hx : Near v relative absolute x) (hv : 0 ≤ v)
    (hrelative : 0 ≤ relative) (hsmall : relative ≤ 1 / 16) (habsolute : 0 ≤ absolute) (hn : n ≤ 308)
    (hfits : toRat x * toRat (powerOfTen n) ≤ largest) :
    Near (v * 10 ^ n) (relative + 4 * unitRoundoff) (2 * absolute * 10 ^ n + smallest / 2)
      (x * powerOfTen n) := by
  have hpower : 0 ≤ toRat (powerOfTen n) := zero_le_one.trans (one_le_toRat_powerOfTen hn)
  refine hx.scale hv (by positivity) ?_ hrelative hsmall habsolute
    (isRounding_mul hx.finite (isRounding_powerOfTen hn).finite ?_)
  · refine (abs_toRat_powerOfTen_sub_le hn).trans (mul_le_mul_of_nonneg_left ?_ (by positivity))
    linarith [unitRoundoff_pos]
  · rwa [abs_of_nonneg (mul_nonneg hx.nonneg hpower)]

theorem Near.div_powerOfTen {n : ℕ} (hx : Near v relative absolute x) (hv : 0 ≤ v)
    (hrelative : 0 ≤ relative) (hsmall : relative ≤ 1 / 16) (habsolute : 0 ≤ absolute)
    (hn : n ≤ 308) :
    Near (v * (10 ^ n)⁻¹) (relative + 4 * unitRoundoff) (2 * absolute * (10 ^ n)⁻¹ + smallest / 2)
      (x / powerOfTen n) := by
  have hone := one_le_toRat_powerOfTen hn
  have hquotient : toRat x / toRat (powerOfTen n) ≤ toRat x := div_le_self hx.nonneg hone
  have hround := isRounding_div hx.finite (isRounding_powerOfTen hn).finite (by linarith) (by
    rw [abs_of_nonneg (div_nonneg hx.nonneg (by linarith))]
    exact hquotient.trans ((le_abs_self _).trans (abs_toRat_le_largest x)))
  rw [div_eq_mul_inv] at hround
  exact hx.scale hv (by positivity) (abs_inv_toRat_powerOfTen_sub_le hn) hrelative hsmall habsolute
    hround

/-! ### Scaling a significand -/

theorem isInf_of_isFinite (hx : isFinite x = true) : x.isInf = false := by
  rw [isFinite_eq] at hx
  show (unpacked x).isInf = false
  generalize unpacked x = u at hx
  rcases u with _ | _ | _ | _ <;> first | contradiction | rfl

/-- A significand of seventeen digits is in the range of doubles. -/
theorem near_ofNat {c : ℕ} (hpos : 0 < c) (hc : c ≤ 10 ^ 17) :
    Near c unitRoundoff 0 (Float.ofNat c) := by
  have hlargest : (c : ℚ) ≤ largest :=
    (by exact_mod_cast hc : (c : ℚ) ≤ 10 ^ 17).trans (ten_pow_le_largest (by norm_num))
  have hround : IsRounding c (ofNat c : Float) := isRounding_ofNat hlargest
  have hone : (1 : ℚ) ≤ c := by exact_mod_cast hpos
  have hnormal : (2 : ℚ) ^ (-1022 : ℤ) ≤ 1 := zpow_le_one_of_nonpos₀ (by norm_num) (by norm_num)
  refine ⟨hround.finite, ?_, ?_⟩
  · exact zero_le_one.trans (hround.le_toRat (by simpa using representable_two_pow 0) hone)
  · rw [add_zero]
    exact hround.abs_sub_le (hnormal.trans hone)

theorem beq_zero_of_pos (hx : isFinite x = true) (hpos : 0 < toRat x) : (x == 0) = false := by
  by_contra heq
  have hfinite : isFinite (0 : Float) = true := rfl
  have hequal : eq x 0 = true := eq_true_of_ne_false heq
  have hless := ((OrderedScalar.eq_iff (isNaN_of_isFinite hx) (isNaN_of_isFinite hfinite)).mp hequal).2
  exact absurd hpos (not_lt.mpr ((lt_eq_false_iff_toRat hfinite hx).mp hless))

theorem scale?_of_neg {c n : ℕ} (hn : 0 < n) (hle : n ≤ 308) :
    scale? c (-n) = some (Float.ofNat c / powerOfTen n) := by
  rw [scale?, if_pos (by omega), Int.natAbs_neg, Int.natAbs_natCast, scaleDown, if_pos hle]

theorem scale?_of_small {c n : ℕ} (hgt : 308 < n) (hle : n ≤ 616)
    (hne : (Float.ofNat c == 0) = false) :
    scale? c (-n) = some (Float.ofNat c / powerOfTen 308 / powerOfTen (n - 308)) := by
  rw [scale?, if_pos (by omega), Int.natAbs_neg, Int.natAbs_natCast, scaleDown,
    if_neg (by omega), hne, if_neg Bool.false_ne_true, scaleDown, if_pos (by omega)]

theorem scale?_of_nonneg {c n : ℕ} (hle : n ≤ 308)
    (hfinite : isFinite (Float.ofNat c * powerOfTen n) = true) :
    scale? c n = some (Float.ofNat c * powerOfTen n) := by
  rw [scale?, if_neg (by omega), if_pos (by omega), Int.toNat_natCast]
  dsimp only
  rw [isInf_of_isFinite hfinite, if_neg Bool.false_ne_true]

/-- Two divisions are one by the product. -/
theorem mul_inv_pow_mul {k n : ℕ} (h : k ≤ n) :
    v * (10 ^ k)⁻¹ * (10 ^ (n - k))⁻¹ = v * (10 ^ n)⁻¹ := by
  rw [mul_assoc, ← mul_inv, ← pow_add, Nat.add_sub_cancel' h]

section Significand

variable {c n : ℕ} (hpos : 0 < c) (hc : c ≤ 10 ^ 17)

include hpos hc

theorem near_scale?_of_nonneg (hn : n ≤ 308)
    (hfits : c * 10 ^ n * (1 + 4 * unitRoundoff) ≤ largest) :
    ∃ y, scale? c n = some y ∧
      Near (c * 10 ^ n) (unitRoundoff + 4 * unitRoundoff) (2 * 0 * 10 ^ n + smallest / 2) y := by
  have hunit := unitRoundoff_pos
  have hstart := near_ofNat hpos hc
  have hproduct : toRat (Float.ofNat c) * toRat (powerOfTen n) ≤ largest := by
    have hfirst := (abs_le.mp hstart.near).2
    have hsecond := (abs_le.mp (abs_toRat_powerOfTen_sub_le hn)).2
    have hpower : 0 ≤ toRat (powerOfTen n) := zero_le_one.trans (one_le_toRat_powerOfTen hn)
    have hsquare : (1 + unitRoundoff) * (1 + unitRoundoff) ≤ 1 + 4 * unitRoundoff := by
      norm_num [unitRoundoff]
    calc toRat (Float.ofNat c) * toRat (powerOfTen n)
        ≤ c * (1 + unitRoundoff) * (10 ^ n * (1 + unitRoundoff)) :=
          mul_le_mul (by linarith) (by linarith) hpower (by positivity)
      _ = c * 10 ^ n * ((1 + unitRoundoff) * (1 + unitRoundoff)) := by ring
      _ ≤ c * 10 ^ n * (1 + 4 * unitRoundoff) :=
          mul_le_mul_of_nonneg_left hsquare (by positivity)
      _ ≤ largest := hfits
  have hscaled := hstart.mul_powerOfTen (Nat.cast_nonneg c) hunit.le (by norm_num [unitRoundoff])
    le_rfl hn hproduct
  exact ⟨_, scale?_of_nonneg hn hscaled.finite, hscaled⟩

theorem near_scale?_of_neg (hn : 0 < n) (hle : n ≤ 308) :
    ∃ y, scale? c (-n) = some y ∧ Near (c * (10 ^ n)⁻¹) (unitRoundoff + 4 * unitRoundoff)
      (2 * 0 * (10 ^ n)⁻¹ + smallest / 2) y :=
  ⟨_, scale?_of_neg hn hle, (near_ofNat hpos hc).div_powerOfTen (Nat.cast_nonneg c)
    unitRoundoff_pos.le (by norm_num [unitRoundoff]) le_rfl hle⟩

/-- Where the power is out of range, the first quotient is divided once more, by ten or more. -/
theorem near_scale?_of_small (hgt : 308 < n) (hle : n ≤ 616) :
    ∃ y, scale? c (-n) = some y ∧
      Near (c * (10 ^ n)⁻¹) (9 * unitRoundoff) (3 / 4 * smallest) y := by
  have hunit := unitRoundoff_pos
  have hsmallest := smallest_pos
  have hc0 : (0 : ℚ) ≤ c := Nat.cast_nonneg c
  have hstart := near_ofNat hpos hc
  have hne : (Float.ofNat c == 0) = false := by
    refine beq_zero_of_pos hstart.finite ?_
    have hone : (1 : ℚ) ≤ c := by exact_mod_cast hpos
    have hhalf : c * unitRoundoff ≤ c / 2 := by
      rw [div_eq_mul_inv]
      exact mul_le_mul_of_nonneg_left (by norm_num [unitRoundoff]) hc0
    linarith [(abs_le.mp hstart.near).1]
  have hfirst := hstart.div_powerOfTen hc0 hunit.le (by norm_num [unitRoundoff]) le_rfl (le_refl 308)
  have hsecond := hfirst.div_powerOfTen (n := n - 308)
    (mul_nonneg hc0 (inv_nonneg.mpr (pow_nonneg (by norm_num) _))) (by linarith)
    (by norm_num [unitRoundoff]) (by rw [mul_zero, zero_mul, zero_add]; linarith) (by omega)
  have hten : ((10 : ℚ) ^ (n - 308))⁻¹ ≤ 1 / 4 := by
    have hpower : (10 : ℚ) ≤ 10 ^ (n - 308) := le_self_pow₀ (by norm_num) (by omega)
    exact (inv_anti₀ (by norm_num) hpower).trans (by norm_num)
  rw [mul_inv_pow_mul hgt.le] at hsecond
  refine ⟨_, scale?_of_small hgt hle hne, hsecond.weaken (by positivity) (by linarith) ?_⟩
  rw [mul_zero, zero_mul, zero_add, mul_div_cancel₀ _ two_ne_zero]
  linarith [mul_le_mul_of_nonneg_left hten hsmallest.le]

/-- **A significand that is scaled** is off by at most nine roundings, and in the subnormal range by
less than one step. -/
theorem near_scale? {k : ℤ} (hlow : -616 ≤ k) (hhigh : k ≤ 308)
    (hfits : c * 10 ^ k * (1 + 4 * unitRoundoff) ≤ largest) :
    ∃ y, scale? c k = some y ∧
      Near (c * 10 ^ k) (9 * unitRoundoff) (3 / 4 * smallest) y := by
  have hunit := unitRoundoff_pos
  have hsmallest := smallest_pos
  rcases lt_or_ge k 0 with hneg | hnonneg
  · obtain ⟨n, rfl⟩ : ∃ n : ℕ, k = -n := ⟨k.natAbs, by omega⟩
    rw [zpow_neg, zpow_natCast]
    rcases Nat.lt_or_ge 308 n with hgt | hle
    · exact near_scale?_of_small hpos hc hgt (by omega)
    · obtain ⟨y, hy, hnear⟩ := near_scale?_of_neg hpos hc (n := n) (by omega) hle
      exact ⟨y, hy, hnear.weaken (by positivity) (by linarith) (by linarith)⟩
  · obtain ⟨n, rfl⟩ : ∃ n : ℕ, k = n := ⟨k.toNat, by omega⟩
    rw [zpow_natCast] at hfits ⊢
    obtain ⟨y, hy, hnear⟩ := near_scale?_of_nonneg hpos hc (n := n) (by omega) hfits
    exact ⟨y, hy, hnear.weaken (by positivity) (by linarith) (by linarith)⟩

end Significand

/-- **A short significand** and a short power are exact, so there is one rounding alone. -/
theorem isRounding_scale? {c : ℕ} {k : ℤ} (hc : c ≤ 2 ^ 53) (hlow : -22 ≤ k) (hhigh : k ≤ 22) :
    ∃ y, scale? c k = some y ∧ IsRounding (c * 10 ^ k) y := by
  have hstart : isFinite (Float.ofNat c) = true := (isRounding_ofNat_of_le hc).finite
  have hvalue : toRat (Float.ofNat c) = c := toRat_ofNat hc
  have hc' : (c : ℚ) ≤ 10 ^ 17 := by
    exact_mod_cast hc.trans (by norm_num : 2 ^ 53 ≤ 10 ^ 17)
  rcases lt_or_ge k 0 with hneg | hnonneg
  · obtain ⟨n, rfl⟩ : ∃ n : ℕ, k = -n := ⟨k.natAbs, by omega⟩
    have hpower := toRat_powerOfTen (k := n) (by omega)
    have hround := isRounding_div hstart (isRounding_powerOfTen (k := n) (by omega)).finite
      (by rw [hpower]; positivity) (by
        have hone := one_le_toRat_powerOfTen (k := n) (by omega)
        rw [hvalue, abs_of_nonneg (div_nonneg (Nat.cast_nonneg c) (by linarith))]
        exact (div_le_self (Nat.cast_nonneg c) hone).trans
          (hc'.trans (ten_pow_le_largest (by norm_num))))
    rw [hvalue, hpower] at hround
    rw [zpow_neg, zpow_natCast, ← div_eq_mul_inv]
    exact ⟨_, scale?_of_neg (by omega) (by omega), hround⟩
  · obtain ⟨n, rfl⟩ : ∃ n : ℕ, k = n := ⟨k.toNat, by omega⟩
    have hpower := toRat_powerOfTen (k := n) (by omega)
    have hround := isRounding_mul hstart (isRounding_powerOfTen (k := n) (by omega)).finite (by
      rw [hvalue, hpower, abs_of_nonneg (by positivity)]
      calc (c : ℚ) * 10 ^ n ≤ 10 ^ 17 * 10 ^ 22 :=
            mul_le_mul hc' (pow_le_pow_right₀ (by norm_num) (by omega)) (by positivity) (by positivity)
        _ = 10 ^ 39 := by norm_num
        _ ≤ largest := ten_pow_le_largest (by norm_num))
    rw [hvalue, hpower] at hround
    rw [zpow_natCast]
    exact ⟨_, scale?_of_nonneg (by omega) hround.finite, hround⟩

end BlockAffinity.Json
