import BlockAffinity.Proofs.Number.Range
import Mathlib

/-!
# BlockAffinity.Proofs.Number.RelativeError

**How far sums of doubles are off.** One rounding in the range of normal doubles changes a number by
at most the fraction `unitRoundoff` of it (`IsRounding.abs_sub_le`). A sum below that range is not
rounded at all, so the bound holds for every sum that does not overflow (`toRat_add_le`).

`AddsWithin` is what an argument about a running sum needs to know of an arithmetic: by what factor
one addition can exceed the exact sum, and by what factor a converted count can fall short. Doubles
add within `1 + unitRoundoff` (`addsWithin_doubles`); doubles on a common grid, with sums that fit the
mantissa, add exactly (`addsWithin_grid`).
-/

namespace BlockAffinity.Double

open Scalar

/-- Half the distance from one to the next double. -/
def unitRoundoff : ℚ := 2 ^ (-53 : ℤ)

theorem unitRoundoff_pos : 0 < unitRoundoff := two_zpow_pos (-53)

theorem one_le_roundings (k : ℕ) : 1 ≤ (1 + unitRoundoff) ^ k :=
  one_le_pow₀ (le_add_of_nonneg_right unitRoundoff_pos.le)

theorem natCast_mul_unitRoundoff_lt {k : ℕ} (h : k ≤ 2 ^ 50) : k * unitRoundoff < 1 / 2 := by
  calc (k : ℚ) * unitRoundoff ≤ (2 ^ 50 : ℕ) * unitRoundoff :=
        mul_le_mul_of_nonneg_right (by exact_mod_cast h) unitRoundoff_pos.le
    _ < 1 / 2 := by norm_num [unitRoundoff]

/-! ### One rounding -/

variable {x y : Float} {v : ℚ}

/-- The grid of the doubles around a number in the range of normal ones. -/
theorem exists_grid (hv : 2 ^ (-1022 : ℤ) ≤ v) :
    ∃ e : ℤ, -1074 ≤ e ∧ 2 ^ (e + 52) ≤ v ∧ v < 2 ^ (e + 53) := by
  have hpos : 0 < v := (two_zpow_pos (-1022)).trans_le hv
  have hlog : (-1022 : ℤ) ≤ Int.log 2 v :=
    (Int.zpow_le_iff_le_log (by norm_num) hpos).mp (by exact_mod_cast hv)
  have hlow := Int.zpow_log_le_self (b := 2) (by norm_num) hpos
  have hhigh := Int.lt_zpow_succ_log_self (b := 2) (by norm_num) v
  refine ⟨Int.log 2 v - 52, by omega, ?_, ?_⟩
  · rw [sub_add_cancel]
    exact_mod_cast hlow
  · rw [show Int.log 2 v - 52 + 53 = Int.log 2 v + 1 by ring]
    exact_mod_cast hhigh

/-- The multiples of a grid up to the next power of two are representable. -/
theorem representable_mul_grid {n e : ℤ} (hnonneg : 0 ≤ n) (hle : n ≤ 2 ^ 53) (he : -1074 ≤ e) :
    Representable ((n : ℚ) * 2 ^ e) := by
  rcases hle.lt_or_eq with hlt | heq
  · exact ⟨n, e, by rwa [abs_of_nonneg hnonneg], he, rfl⟩
  · refine ⟨2 ^ 52, e + 1, by norm_num, by omega, ?_⟩
    rw [heq, two_zpow_add, zpow_one]
    push_cast
    ring

/-- Among the multiples of a grid of doubles one is at most half a step away. -/
theorem exists_representable_on_grid {e : ℤ} (he : -1074 ≤ e) (hv : 0 ≤ v) (hhigh : v < 2 ^ (e + 53)) :
    ∃ b, Representable b ∧ |b - v| ≤ 1 / 2 * 2 ^ e := by
  have hunit := two_zpow_pos e
  have hround : |(round (v / 2 ^ e) : ℚ) - v / 2 ^ e| ≤ 1 / 2 := by
    rw [abs_sub_comm]
    exact abs_sub_round (v / 2 ^ e)
  refine ⟨round (v / 2 ^ e) * 2 ^ e, representable_mul_grid ?_ ?_ he, ?_⟩
  · have hgt : (-1 : ℚ) < round (v / 2 ^ e) := by
      linarith [div_nonneg hv hunit.le, (abs_le.mp hround).1]
    have hgt' : -1 < round (v / 2 ^ e) := by exact_mod_cast hgt
    omega
  · have hquotient : v / 2 ^ e < 2 ^ 53 := by
      rw [div_lt_iff₀ hunit, mul_comm, ← zpow_natCast, ← two_zpow_add]
      exact hhigh
    have hlt : (round (v / 2 ^ e) : ℚ) < 2 ^ 53 + 1 := by linarith [(abs_le.mp hround).2]
    have hlt' : round (v / 2 ^ e) < 2 ^ 53 + 1 := by exact_mod_cast hlt
    omega
  · calc |(round (v / 2 ^ e) : ℚ) * 2 ^ e - v|
        = |(round (v / 2 ^ e) : ℚ) - v / 2 ^ e| * 2 ^ e := by
          rw [← abs_of_pos hunit, ← abs_mul, abs_of_pos hunit, sub_mul, div_mul_cancel₀ _ hunit.ne']
      _ ≤ 1 / 2 * 2 ^ e := mul_le_mul_of_nonneg_right hround hunit.le

/-- Near a number in the range of normal doubles there is a representable one. -/
theorem exists_representable_near (hv : 2 ^ (-1022 : ℤ) ≤ v) :
    ∃ b, Representable b ∧ |b - v| ≤ v * unitRoundoff := by
  obtain ⟨e, he, hlow, hhigh⟩ := exists_grid hv
  obtain ⟨b, hb, hnear⟩ :=
    exists_representable_on_grid he ((two_zpow_pos (-1022)).trans_le hv).le hhigh
  refine ⟨b, hb, hnear.trans ?_⟩
  calc (1 / 2 : ℚ) * 2 ^ e = 2 ^ (e + 52) * unitRoundoff := by
        rw [two_zpow_add, unitRoundoff, mul_assoc, ← two_zpow_add]
        norm_num
        ring
    _ ≤ v * unitRoundoff := mul_le_mul_of_nonneg_right hlow unitRoundoff_pos.le

/-- **The relative error of a rounding** is at most the unit roundoff, in the range of normal
doubles. -/
theorem IsRounding.abs_sub_le (h : IsRounding v x) (hv : 2 ^ (-1022 : ℤ) ≤ v) :
    |toRat x - v| ≤ v * unitRoundoff := by
  obtain ⟨b, hb, hnear⟩ := exists_representable_near hv
  exact (h.nearest b hb).trans hnear

theorem representable_two_zpow {e : ℤ} (he : -1074 ≤ e) : Representable (2 ^ e) :=
  ⟨1, e, by norm_num, he, by simp⟩

/-- An upper bound in the range of normal doubles is exceeded by at most the unit roundoff. -/
theorem IsRounding.toRat_le_mul (h : IsRounding v x) {b : ℚ} (hb : 2 ^ (-1022 : ℤ) ≤ b)
    (hv : v ≤ b) : toRat x ≤ b * (1 + unitRoundoff) := by
  have hunit := unitRoundoff_pos
  rcases le_or_gt (2 ^ (-1022 : ℤ)) v with hnormal | hsmall
  · have herror := (abs_le.mp (h.abs_sub_le hnormal)).2
    calc toRat x ≤ v * (1 + unitRoundoff) := by linarith
      _ ≤ b * (1 + unitRoundoff) := mul_le_mul_of_nonneg_right hv (by linarith)
  · have hpos : 0 ≤ b := (two_zpow_pos (-1022)).le.trans hb
    calc toRat x ≤ 2 ^ (-1022 : ℤ) := h.toRat_le (representable_two_zpow (by norm_num)) hsmall.le
      _ ≤ b := hb
      _ ≤ b * (1 + unitRoundoff) := le_mul_of_one_le_right hpos (by linarith)

/-- A lower bound in the range of normal doubles is missed by at most the unit roundoff. -/
theorem IsRounding.mul_le_toRat (h : IsRounding v x) {b : ℚ} (hb : 2 ^ (-1022 : ℤ) ≤ b)
    (hv : b ≤ v) : b * (1 - unitRoundoff) ≤ toRat x := by
  have herror := (abs_le.mp (h.abs_sub_le (hb.trans hv))).1
  have hunit : unitRoundoff ≤ 1 := by norm_num [unitRoundoff]
  calc b * (1 - unitRoundoff) ≤ v * (1 - unitRoundoff) :=
        mul_le_mul_of_nonneg_right hv (by linarith)
    _ ≤ toRat x := by linarith

/-- The smallest positive double. -/
def smallest : ℚ := 2 ^ (-1074 : ℤ)

theorem smallest_pos : 0 < smallest := two_zpow_pos (-1074)

/-- Doubles are multiples of the smallest one. -/
theorem exists_mul_smallest (x : Float) : ∃ k : ℤ, toRat x = k * smallest :=
  ((representable_toRat x).on_grid (-1074)).resolve_right fun hbad => lt_irrefl _ hbad.1

theorem smallest_le (hpos : 0 < toRat x) : smallest ≤ toRat x := by
  obtain ⟨k, hk⟩ := exists_mul_smallest x
  rw [hk] at hpos ⊢
  have hone : 1 ≤ k := by exact_mod_cast pos_of_mul_pos_left hpos smallest_pos.le
  exact le_mul_of_one_le_left smallest_pos.le (by exact_mod_cast hone)

/-- What is above half the smallest double does not round to zero. -/
theorem IsRounding.toRat_pos (h : IsRounding v x) (hv : smallest / 2 < v) : 0 < toRat x := by
  have hnear := h.nearest smallest (representable_two_zpow le_rfl)
  have hpos := smallest_pos
  by_contra hnot
  rw [abs_of_nonpos (by linarith : toRat x - v ≤ 0)] at hnear
  rcases abs_cases (smallest - v) with ⟨heq, -⟩ | ⟨heq, -⟩ <;> linarith

/-- A few roundings do not double a number. -/
theorem one_add_pow_le_two {ε : ℚ} {k : ℕ} (hε : 0 ≤ ε) (h : k * ε ≤ 1 / 2) : (1 + ε) ^ k ≤ 2 := by
  rcases Nat.eq_zero_or_pos k with rfl | hk
  · norm_num
  have hk' : (1 : ℚ) ≤ k := by exact_mod_cast hk
  have hsmall : ε ≤ 1 / 2 := (le_mul_of_one_le_left hε hk').trans h
  have hlow : 1 / 2 ≤ (1 - ε) ^ k := by
    have hbernoulli := one_add_mul_le_pow (a := -ε) (by linarith) k
    rw [← sub_eq_add_neg] at hbernoulli
    linarith
  have hproduct : (1 + ε) ^ k * (1 - ε) ^ k ≤ 1 := by
    rw [← mul_pow]
    exact pow_le_one₀ (mul_nonneg (by linarith) (by linarith)) (by linarith [sq_nonneg ε])
  have hpos : 0 ≤ (1 + ε) ^ k := pow_nonneg (by linarith) k
  linarith [mul_le_mul_of_nonneg_left hlow hpos]

/-- A few roundings do not take half of a number away. -/
theorem half_lt_one_sub_pow {ε : ℚ} {k : ℕ} (hε : ε ≤ 1) (h : k * ε < 1 / 2) :
    1 / 2 < (1 - ε) ^ k := by
  have hbernoulli := one_add_mul_le_pow (a := -ε) (by linarith) k
  rw [← sub_eq_add_neg] at hbernoulli
  linarith

/-! ### Sums -/

/-- A multiple of `2 ^ e` whose factor fits the mantissa is representable. -/
theorem representable_of_grid {k e : ℤ} (hk : 0 ≤ (k : ℚ) * 2 ^ e)
    (hlt : (k : ℚ) * 2 ^ e < 2 ^ 53 * 2 ^ e) (he : -1074 ≤ e) : Representable (k * 2 ^ e) := by
  have hnonneg : 0 ≤ k := by
    exact_mod_cast nonneg_of_mul_nonneg_left hk (two_zpow_pos e)
  have hlt' : k < 2 ^ 53 := by
    exact_mod_cast lt_of_mul_lt_mul_right hlt (two_zpow_pos e).le
  exact ⟨k, e, by rwa [abs_of_nonneg hnonneg], he, rfl⟩

/-- Sums below the range of normal doubles are exact. -/
theorem representable_add_of_lt (hnonneg : 0 ≤ toRat x + toRat y)
    (hsmall : toRat x + toRat y < 2 ^ (-1022 : ℤ)) : Representable (toRat x + toRat y) := by
  obtain ⟨k, hk⟩ := exists_mul_smallest x
  obtain ⟨l, hl⟩ := exists_mul_smallest y
  have hadd : toRat x + toRat y = ((k + l : ℤ) : ℚ) * 2 ^ (-1074 : ℤ) := by
    rw [hk, hl, Int.cast_add, add_mul, smallest]
  rw [hadd] at hnonneg hsmall ⊢
  refine representable_of_grid hnonneg (hsmall.trans ?_) le_rfl
  rw [← zpow_natCast, ← two_zpow_add]
  exact zpow_lt_zpow_right₀ (by norm_num) (by norm_num)

/-- **A sum of two doubles** exceeds the exact sum by at most the unit roundoff. Where doubles are so
small that a rounding could do more, sums are exact. -/
theorem toRat_add_le (hx : InRange (2 ^ 1023) x) (hy : InRange (2 ^ 1023) y)
    (hsum : toRat x + toRat y < 2 ^ 1023) :
    InRange (2 ^ 1023) (x + y) ∧
      toRat (x + y) ≤ (toRat x + toRat y) * (1 + unitRoundoff) := by
  have hnonneg : 0 ≤ toRat x + toRat y := add_nonneg hx.nonneg hy.nonneg
  have hround : IsRounding (toRat x + toRat y) (x + y) := isRounding_add hx.finite hy.finite
    (abs_le_largest_of_le le_rfl hnonneg hsum.le)
  refine ⟨hround.inRange (representable_two_pow 1023) hnonneg hsum.le, ?_⟩
  rcases le_or_gt (2 ^ (-1022 : ℤ)) (toRat x + toRat y) with hnormal | hsmall
  · have herror := (abs_le.mp (hround.abs_sub_le hnormal)).2
    linarith
  · rw [hround.toRat_eq (representable_add_of_lt hnonneg hsmall)]
    exact le_mul_of_one_le_right hnonneg (le_add_of_nonneg_right unitRoundoff_pos.le)

/-- A sum of two doubles falls short of the exact sum by at most the unit roundoff. -/
theorem mul_le_toRat_add (hx : InRange (2 ^ 1023) x) (hy : InRange (2 ^ 1023) y)
    (hsum : toRat x + toRat y < 2 ^ 1023) :
    (toRat x + toRat y) * (1 - unitRoundoff) ≤ toRat (x + y) := by
  have hnonneg : 0 ≤ toRat x + toRat y := add_nonneg hx.nonneg hy.nonneg
  have hround : IsRounding (toRat x + toRat y) (x + y) := isRounding_add hx.finite hy.finite
    (abs_le_largest_of_le le_rfl hnonneg hsum.le)
  rcases le_or_gt (2 ^ (-1022 : ℤ)) (toRat x + toRat y) with hnormal | hsmall
  · exact hround.mul_le_toRat hnormal le_rfl
  · rw [hround.toRat_eq (representable_add_of_lt hnonneg hsmall)]
    exact mul_le_of_le_one_right hnonneg (by linarith [unitRoundoff_pos])

/-- An arithmetic on the doubles in `G`: below `limit` a sum stays in `G` and exceeds the exact sum by
at most the factor `growth`, and no count up to `count` falls short by more than its square. -/
structure AddsWithin (G : Float → Prop) (limit growth : ℚ) (count : ℕ) : Prop where
  one_le : 1 ≤ growth
  inRange : ∀ {x}, G x → InRange (2 ^ 1023) x
  add : ∀ {x y}, G x → G y → toRat x + toRat y < limit →
    G (x + y) ∧ toRat (x + y) ≤ (toRat x + toRat y) * growth
  ofNat : ∀ {k : ℕ}, 0 < k → k ≤ count →
    isFinite (ofNat k : Float) = true ∧ k ≤ toRat (ofNat k) * growth ^ 2

theorem natCast_le_two_pow {k n : ℕ} (h : k ≤ 2 ^ n) : (k : ℚ) ≤ 2 ^ n := by exact_mod_cast h

/-- **Doubles add within the unit roundoff.** -/
theorem addsWithin_doubles {count : ℕ} (hcount : count ≤ 2 ^ 128) :
    AddsWithin (InRange (2 ^ 1023)) (2 ^ 1023) (1 + unitRoundoff) count where
  one_le := le_add_of_nonneg_right unitRoundoff_pos.le
  inRange h := h
  add := toRat_add_le
  ofNat := by
    intro k hk hle
    have hlargest : (k : ℚ) ≤ largest :=
      (natCast_le_two_pow (hle.trans hcount)).trans (two_pow_le_largest (by norm_num))
    have hround := isRounding_ofNat hlargest
    have hone : (1 : ℚ) ≤ k := by exact_mod_cast hk
    have hnormal : (2 : ℚ) ^ (-1022 : ℤ) ≤ k :=
      (zpow_le_one_of_nonpos₀ (by norm_num) (by norm_num)).trans hone
    have herror := (abs_le.mp (hround.abs_sub_le hnormal)).1
    refine ⟨hround.finite, ?_⟩
    -- what is lost in the conversion is made up for by the square
    have hfactor : 1 ≤ (1 - unitRoundoff) * (1 + unitRoundoff) ^ 2 := by norm_num [unitRoundoff]
    calc (k : ℚ) ≤ k * ((1 - unitRoundoff) * (1 + unitRoundoff) ^ 2) :=
          le_mul_of_one_le_right (by linarith) hfactor
      _ = k * (1 - unitRoundoff) * (1 + unitRoundoff) ^ 2 := by ring
      _ ≤ toRat (ofNat k) * (1 + unitRoundoff) ^ 2 :=
          mul_le_mul_of_nonneg_right (by linarith) (sq_nonneg _)

/-- A double that is a whole multiple of `2 ^ e` and not negative. -/
def OnGrid (e : ℤ) (x : Float) : Prop :=
  isFinite x = true ∧ ∃ k : ℕ, toRat x = k * 2 ^ e

/-- **Doubles on a grid add exactly** as long as sums fit the mantissa. -/
theorem addsWithin_grid {e : ℤ} {count : ℕ} (he : -1074 ≤ e) (he' : e ≤ 970)
    (hcount : count < 2 ^ 53) :
    AddsWithin (fun x => OnGrid e x ∧ toRat x < 2 ^ 53 * 2 ^ e) (2 ^ 53 * 2 ^ e) 1 count where
  one_le := le_rfl
  inRange := by
    intro x h
    obtain ⟨⟨hfinite, k, hk⟩, hlt⟩ := h
    refine ⟨hfinite, ?_, hlt.le.trans ?_⟩
    · rw [hk]
      exact mul_nonneg (Nat.cast_nonneg k) (two_zpow_pos e).le
    · rw [← zpow_natCast, ← zpow_natCast, ← two_zpow_add]
      exact zpow_le_zpow_right₀ (by norm_num) (by push_cast; omega)
  add := by
    intro x y hx hy hsum
    obtain ⟨⟨hx, k, hk⟩, -⟩ := hx
    obtain ⟨⟨hy, l, hl⟩, -⟩ := hy
    have hadd : toRat x + toRat y = ((k + l : ℕ) : ℤ) * 2 ^ e := by
      rw [hk, hl]
      push_cast
      ring
    have hnonneg : 0 ≤ toRat x + toRat y := by
      rw [hadd]
      exact mul_nonneg (by positivity) (two_zpow_pos e).le
    have hexact : Representable (toRat x + toRat y) := by
      rw [hadd] at hnonneg hsum ⊢
      exact representable_of_grid hnonneg hsum he
    have hlargest : |toRat x + toRat y| ≤ largest := by
      refine abs_le_largest_of_le le_rfl hnonneg (hsum.le.trans ?_)
      rw [← zpow_natCast, ← zpow_natCast, ← two_zpow_add]
      exact zpow_le_zpow_right₀ (by norm_num) (by push_cast; omega)
    have hround := isRounding_add hx hy hlargest
    have hvalue := hround.toRat_eq hexact
    refine ⟨⟨⟨hround.finite, k + l, ?_⟩, ?_⟩, ?_⟩
    · rw [hvalue, hadd, Int.cast_natCast]
    · rwa [hvalue]
    · rw [hvalue, mul_one]
  ofNat := by
    intro k _ hle
    have hlt : k < 2 ^ 53 := hle.trans_lt hcount
    have hround := isRounding_ofNat
      ((natCast_le_two_pow hlt.le).trans (two_pow_le_largest (by norm_num)))
    refine ⟨hround.finite, ?_⟩
    rw [hround.toRat_eq (representable_natCast hlt), one_pow, mul_one]

end BlockAffinity.Double
