import BlockAffinity.Proofs.Number.RelativeError

/-!
# BlockAffinity.Proofs.Number.SquareRoot

**Square roots of doubles round to nearest.** The exact root need not be a rational number, so it is
closed in between two of them: the square root of a double is a rounding of a number whose square is at
most that of the exact root, and of one whose square is at least that (`isRounding_sqrt`). Bounds on a
root then follow from bounds on one of the two.

The root is computed from the integer root of a shifted mantissa, which has half as many bits
(`log2_sqrt`). Whether the remainder exceeds the integer root tells on which side of the next half
the exact root lies (`represents_root`).
-/

namespace BlockAffinity.Double

open Float.Model Float.Model.UnpackedFloat

/-! ### Integer roots -/

theorem log2_sqrt (n : ℕ) : n.sqrt.log2 = n.log2 / 2 := by
  rcases Nat.eq_zero_or_pos n with rfl | hpos
  · simp
  · refine (Nat.log2_eq_iff (Nat.sqrt_pos.mpr hpos).ne').mpr ⟨?_, ?_⟩
    · rw [Nat.le_sqrt', ← Nat.pow_mul]
      exact (Nat.pow_le_pow_right (by norm_num) (by omega)).trans (Nat.log2_self_le hpos.ne')
    · rw [Nat.sqrt_lt', ← Nat.pow_mul]
      exact Nat.lt_log2_self.trans_le (Nat.pow_le_pow_right (by norm_num) (by omega))

/-- Where the exact root of `n` is, seen from the integer root. It is never half way to the next
integer. -/
def accuracyOfRoot (n : ℕ) : Accuracy :=
  if n - n.sqrt * n.sqrt = 0 then .exact
  else .inexact (if n - n.sqrt * n.sqrt ≤ n.sqrt then .lt else .gt)

/-- Below the next half there is room for a number whose square reaches `v`. -/
theorem exists_rest {c v : ℚ} (hc : 0 ≤ c) (h : v + 1 / 4 ≤ (c + 1 / 2) ^ 2) :
    ∃ rest, 0 ≤ rest ∧ rest < 1 / 2 ∧ v ≤ (c + rest) ^ 2 := by
  have hpos : 0 < 2 * c + 1 := by linarith
  obtain ⟨gap, hgap⟩ : ∃ gap, gap = 1 / (4 * (2 * c + 1)) := ⟨_, rfl⟩
  have hgap' : gap * (2 * c + 1) = 1 / 4 := by
    rw [hgap]
    field_simp
  have hgap0 : 0 < gap := by
    rw [hgap]
    positivity
  refine ⟨1 / 2 - gap, ?_, by linarith, ?_⟩
  · have hle : gap * 1 ≤ gap * (2 * c + 1) := mul_le_mul_of_nonneg_left (by linarith) hgap0.le
    linarith
  · calc v ≤ (c + 1 / 2) ^ 2 - gap * (2 * c + 1) := by linarith
      _ ≤ (c + 1 / 2) ^ 2 - gap * (2 * c + 1) + gap ^ 2 := by linarith [sq_nonneg gap]
      _ = (c + (1 / 2 - gap)) ^ 2 := by ring

/-- The two sides of the next half, told apart by the round bit. -/
theorem represents_inexact (root : ℕ) (t : ℤ) {above : Prop} [Decidable above] {rest : ℚ}
    (hrest : 0 ≤ rest) (hrest' : rest < 1 / 2) :
    Represents ((root + (if above then 1 / 2 else 0) + rest) * 2 ^ t)
      (ExtendedMantissa.ofMantissaAndAccuracy root (.inexact (if above then .gt else .lt))) t := by
  by_cases habove : above
  · exact ⟨rest, hrest, hrest', by simp [ExtendedMantissa.ofMantissaAndAccuracy, habove],
      by simp [ExtendedMantissa.ofMantissaAndAccuracy, habove]⟩
  · exact ⟨rest, hrest, hrest', by simp [ExtendedMantissa.ofMantissaAndAccuracy, habove],
      by simp [ExtendedMantissa.ofMantissaAndAccuracy, habove]⟩

/-- **The residual bits of an integer root** stand for a number at or below the exact root, and for one
at or above it. -/
theorem represents_root (n : ℕ) (t : ℤ) :
    ∃ low high : ℚ, 0 ≤ low ∧ 0 ≤ high ∧ low ^ 2 ≤ n * (2 ^ t) ^ 2 ∧ n * (2 ^ t) ^ 2 ≤ high ^ 2 ∧
      Represents low (ExtendedMantissa.ofMantissaAndAccuracy n.sqrt (accuracyOfRoot n)) t ∧
      Represents high (ExtendedMantissa.ofMantissaAndAccuracy n.sqrt (accuracyOfRoot n)) t := by
  have hpower := two_zpow_pos t
  -- squares may be compared at exponent zero
  have hscale : ∀ {a b : ℚ}, a ≤ b → a * (2 ^ t) ^ 2 ≤ b * (2 ^ t) ^ 2 := fun h =>
    mul_le_mul_of_nonneg_right h (sq_nonneg _)
  have hroot : (0 : ℚ) ≤ n.sqrt := Nat.cast_nonneg _
  have hle : n.sqrt * n.sqrt ≤ n := Nat.sqrt_le n
  have hge : n ≤ n.sqrt * n.sqrt + n.sqrt + n.sqrt := Nat.sqrt_le_add n
  rw [accuracyOfRoot]
  by_cases hzero : n - n.sqrt * n.sqrt = 0
  · have hn : (n : ℚ) = n.sqrt * n.sqrt := by exact_mod_cast (by omega : n = n.sqrt * n.sqrt)
    have hsquare : ((n.sqrt : ℚ) * 2 ^ t) ^ 2 = n * (2 ^ t) ^ 2 := by rw [mul_pow, sq, ← hn]
    have hexact := represents_exact n.sqrt t
    rw [if_pos hzero]
    exact ⟨_, _, by positivity, by positivity, hsquare.le, hsquare.ge, hexact, hexact⟩
  · have habove : (if n - n.sqrt * n.sqrt ≤ n.sqrt then Ordering.lt else .gt) =
        if n.sqrt < n - n.sqrt * n.sqrt then .gt else .lt := by
      split_ifs <;> first | rfl | omega
    obtain ⟨half, hhalf⟩ : ∃ half : ℚ,
        half = if n.sqrt < n - n.sqrt * n.sqrt then 1 / 2 else 0 := ⟨_, rfl⟩
    -- the exact root is between this number and the next half
    have hbounds : 0 ≤ half ∧ (n.sqrt + half) ^ 2 ≤ n ∧ n + 1 / 4 ≤ (n.sqrt + half + 1 / 2) ^ 2 := by
      rw [hhalf]
      split_ifs with hlt
      · have hlt' : (n.sqrt * n.sqrt + n.sqrt + 1 : ℚ) ≤ n := by exact_mod_cast (by omega)
        have hge' : (n : ℚ) ≤ n.sqrt * n.sqrt + n.sqrt + n.sqrt := by exact_mod_cast hge
        exact ⟨by norm_num, by linarith, by linarith⟩
      · have hlt' : (n : ℚ) ≤ n.sqrt * n.sqrt + n.sqrt := by exact_mod_cast (by omega)
        have hle' : (n.sqrt * n.sqrt : ℚ) ≤ n := by exact_mod_cast hle
        exact ⟨le_rfl, by linarith, by linarith⟩
    obtain ⟨hhalf0, hbelow, hroom⟩ := hbounds
    obtain ⟨rest, hrest, hrest', hreach⟩ := exists_rest (add_nonneg hroot hhalf0) hroom
    rw [if_neg hzero, habove]
    refine ⟨(n.sqrt + half + 0) * 2 ^ t, (n.sqrt + half + rest) * 2 ^ t, by positivity,
      by positivity, ?_, ?_, ?_, ?_⟩
    · rw [add_zero, mul_pow]
      exact hscale hbelow
    · rw [mul_pow]
      exact hscale hreach
    · rw [hhalf]
      exact represents_inexact n.sqrt t le_rfl (by norm_num)
    · rw [hhalf]
      exact represents_inexact n.sqrt t hrest hrest'

/-! ### Roots of doubles -/

/-- **A square root** rounds a number at or below the exact root, and one at or above it. -/
theorem rounds_sqrt {x : UnpackedFloat} (hx : x.isFinite = true) (hnonneg : 0 ≤ value x) :
    ∃ low high : ℚ, 0 ≤ low ∧ 0 ≤ high ∧ low ^ 2 ≤ value x ∧ value x ≤ high ^ 2 ∧
      Rounds low (UnpackedFloat.sqrt .binary64 x) ∧ Rounds high (UnpackedFloat.sqrt .binary64 x) := by
  rcases x with _ | _ | s | ⟨⟨⟩, m, e, hm⟩ <;> try contradiction
  · have hzero := rounds_zero s
    exact ⟨0, 0, le_rfl, le_rfl, by simp [value], by simp [value], hzero, hzero⟩
  · rw [value_finite_negative] at hnonneg
    exact absurd hnonneg (by linarith [value_positive_pos e hm])
  · obtain ⟨t, ht⟩ : ∃ t : ℤ, t = min (e.ediv 2)
        (Format.binary64.targetExponent ((totalExponent m e + 1).ediv 2)) := ⟨_, rfl⟩
    obtain ⟨n, hn⟩ : ∃ n, n = m <<< (e - 2 * t).toNat := ⟨_, rfl⟩
    have hsqrt : UnpackedFloat.sqrt .binary64 (.finite .positive m e hm) =
        roundWithAccuracy .binary64 .positive n.sqrt t (accuracyOfRoot n) := by
      rw [hn, ht]
      rfl
    have hle : 2 * t ≤ e := by
      have hhalf : t ≤ e.ediv 2 := ht ▸ min_le_left _ _
      have := Int.ediv_mul_le e (b := 2) (by norm_num)
      have hdiv : e.ediv 2 = e / 2 := rfl
      omega
    have hvalue : value (.finite .positive m e hm) = n * (2 ^ t) ^ 2 := by
      have hshift := shiftLeft_mul_two_zpow hle m
      rw [← hn, two_mul, two_zpow_add, ← sq] at hshift
      rw [hshift, value, Sign.apply, Int.cast_natCast]
    obtain ⟨low, high, hlow, hhigh, hbelow, habove, hrlow, hrhigh⟩ := represents_root n t
    -- halving the number of bits halves the exponent, so no bit is missing
    have htarget : t ≤ Format.binary64.targetExponent (totalExponent n.sqrt t) := by
      have hlog : n.log2 = m.log2 + (e - 2 * t).toNat := by rw [hn, log2_shiftLeft hm.ne']
      have hexponent : totalExponent n.sqrt t = (totalExponent m e + 1).ediv 2 := by
        have hdiv : (totalExponent m e + 1).ediv 2 = (totalExponent m e + 1) / 2 := rfl
        rw [hdiv]
        simp only [totalExponent, log2_sqrt]
        omega
      rw [hexponent, ht]
      exact min_le_right _ _
    have hone : ∀ v : ℚ, ((Sign.positive.apply 1 : ℤ) : ℚ) * v = v := by simp [Sign.apply]
    have hroundsLow := rounds_roundWithAccuracy .positive hrlow htarget
    have hroundsHigh := rounds_roundWithAccuracy .positive hrhigh htarget
    rw [hone, ← hsqrt] at hroundsLow hroundsHigh
    rw [hvalue]
    exact ⟨low, high, hlow, hhigh, hbelow, habove, hroundsLow, hroundsHigh⟩

/-- **The square root of a double** is finite, and so are both roundings. -/
theorem isRounding_sqrt {x : Float} (hx : Scalar.isFinite x = true) (hnonneg : 0 ≤ toRat x) :
    ∃ low high : ℚ, 0 ≤ low ∧ 0 ≤ high ∧ low ^ 2 ≤ toRat x ∧ toRat x ≤ high ^ 2 ∧
      IsRounding low (Scalar.sqrt x) ∧ IsRounding high (Scalar.sqrt x) := by
  obtain ⟨low, high, hlow, hhigh, hbelow, habove, hrlow, hrhigh⟩ := rounds_sqrt hx hnonneg
  have hlargest : low ≤ largest := by
    by_contra hgt
    have hone : 1 ≤ largest := by simpa using two_pow_le_largest (n := 0) (by norm_num)
    have hsquare : low ≤ low ^ 2 := le_self_pow₀ (hone.trans (not_le.mp hgt).le) two_ne_zero
    exact hgt (hsquare.trans (hbelow.trans ((le_abs_self _).trans (abs_toRat_le_largest x))))
  have hencodable := hrlow.encodable (by rwa [abs_of_nonneg hlow])
  have hunpacked : unpacked (Scalar.sqrt x) = UnpackedFloat.sqrt .binary64 (unpacked x) :=
    unpack_pack_of_canonical hrlow.finite hrlow.canonical hencodable
  have hrounding : ∀ {v : ℚ}, Rounds v (UnpackedFloat.sqrt .binary64 (unpacked x)) →
      IsRounding v (Scalar.sqrt x) := by
    intro v hv
    exact ⟨by rw [isFinite_eq, hunpacked]; exact hv.finite,
      by rw [toRat, hunpacked]; exact hv.nearest⟩
  exact ⟨low, high, hlow, hhigh, hbelow, habove, hrounding hrlow, hrounding hrhigh⟩

/-! ### Bounds -/

/-- **The square of a root** exceeds a bound of the radicand by at most two roundings. -/
theorem InRange.sqrt {x : Float} {b : ℚ} (hx : InRange b x) (hb : 2 ^ (-1022 : ℤ) ≤ b) :
    Scalar.isFinite (Scalar.sqrt x) = true ∧ 0 ≤ toRat (Scalar.sqrt x) ∧
      toRat (Scalar.sqrt x) ^ 2 ≤ b * (1 + unitRoundoff) ^ 2 := by
  obtain ⟨low, -, hlow, -, hbelow, -, hround, -⟩ := isRounding_sqrt hx.finite hx.nonneg
  have hnonneg : 0 ≤ toRat (Scalar.sqrt x) :=
    hround.le_toRat ⟨0, 0, by norm_num, by norm_num, by norm_num⟩ hlow
  have hgrowth : 1 ≤ (1 + unitRoundoff) ^ 2 := by norm_num [unitRoundoff]
  have hpos : 0 ≤ b := hx.bound_nonneg
  refine ⟨hround.finite, hnonneg, ?_⟩
  rcases le_or_gt (2 ^ (-1022 : ℤ)) low with hnormal | hsmall
  · calc toRat (Scalar.sqrt x) ^ 2
        ≤ (low * (1 + unitRoundoff)) ^ 2 :=
          pow_le_pow_left₀ hnonneg (hround.toRat_le_mul hnormal le_rfl) 2
      _ = low ^ 2 * (1 + unitRoundoff) ^ 2 := mul_pow _ _ 2
      _ ≤ b * (1 + unitRoundoff) ^ 2 :=
          mul_le_mul_of_nonneg_right (hbelow.trans hx.le) (sq_nonneg _)
  · -- a root as small as this one has a square far below the bound
    have hle := hround.toRat_le (representable_two_zpow (by norm_num)) hsmall.le
    calc toRat (Scalar.sqrt x) ^ 2
        ≤ (2 ^ (-1022 : ℤ)) ^ 2 := pow_le_pow_left₀ hnonneg hle 2
      _ ≤ 2 ^ (-1022 : ℤ) :=
          pow_le_of_le_one (two_zpow_pos _).le
            (zpow_le_one_of_nonpos₀ (by norm_num) (by norm_num)) two_ne_zero
      _ ≤ b := hb
      _ ≤ b * (1 + unitRoundoff) ^ 2 := le_mul_of_one_le_right hpos hgrowth

/-- A root misses a lower bound of the exact root by at most the unit roundoff. -/
theorem mul_le_toRat_sqrt {x : Float} (hx : Scalar.isFinite x = true) {b : ℚ}
    (hb : 2 ^ (-1022 : ℤ) ≤ b) (h : b ^ 2 ≤ toRat x) :
    b * (1 - unitRoundoff) ≤ toRat (Scalar.sqrt x) := by
  obtain ⟨-, high, -, hhigh, -, habove, -, hround⟩ := isRounding_sqrt hx ((sq_nonneg b).trans h)
  exact hround.mul_le_toRat hb (le_of_sq_le_sq (h.trans habove) hhigh)

end BlockAffinity.Double
