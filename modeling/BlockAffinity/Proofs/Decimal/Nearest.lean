import BlockAffinity.Proofs.Decimal.Shortest
import BlockAffinity.Proofs.Number.RelativeError

/-!
# BlockAffinity.Proofs.Decimal.Nearest

**No double is nearer to a decimal than the one it is written for.** A number in the rounding interval
of a double is nearest to this double (`RoundingInterval.nearest_of_holds`); the interval of a power of
two is narrower at its lower end, since the doubles below lie twice as close.

Two doubles that are both nearest to one number can only differ if it lies in the middle between them.
A decimal of at most `2 ^ 53` with at most 22 places is not in the middle between two doubles, for it is
one as soon as it lies on any binary grid at all (`representable_of_mul_eq`). So such a decimal is rounded
to one double alone (`Digits.IsShort.toRat_eq`).
-/

namespace BlockAffinity.Decimal

open Double

namespace RoundingInterval

variable {m : ℕ} {e : ℤ} {q b : ℚ}

/-- The lower end of the interval of a power of two. -/
theorem low_le_of_holds (he : e ≠ -1074) (h : (ofFinite (2 ^ 52) e).Holds q) :
    2 ^ 52 * 2 ^ e - 2 ^ e / 4 ≤ q := by
  have hgap : 4 * 2 ^ 52 - (if (2 ^ 52 : ℕ) = 2 ^ 52 ∧ e ≠ -1074 then 1 else 2) = 4 * 2 ^ 52 - 1 := by
    rw [if_pos ⟨rfl, he⟩]
  have hlow : ((ofFinite (2 ^ 52) e).low : ℚ) / (ofFinite (2 ^ 52) e).unit =
      (4 * 2 ^ 52 - 1 : ℕ) * (2 ^ e / 4) := by
    rw [← hgap]
    exact mul_scale_div_unit _ e
  refine le_trans (le_of_eq ?_) h.low_le
  rw [hlow]
  norm_num
  ring

/-- **What is in the interval of a double** is not nearer to another one. -/
theorem nearest_of_holds (hfull : 2 ^ 52 ≤ m ∨ e = -1074)
    (h : (ofFinite m e).Holds q) (hb : Representable b) : |m * 2 ^ e - q| ≤ |b - q| := by
  have hpos := two_zpow_pos e
  have hhalf : |((m : ℤ) : ℚ) * 2 ^ e - q| ≤ 2 ^ e / 2 := by
    rw [abs_sub_comm, Int.cast_natCast]
    exact abs_sub_le_of_holds h
  rcases hb.on_grid e with ⟨k, rfl⟩ | ⟨hlow, hbelow⟩
  · exact_mod_cast abs_sub_le_of_grid (k := k) hhalf
  have hm : 2 ^ 52 ≤ m := hfull.resolve_right hlow.ne'
  rcases le_or_gt (2 ^ 52 * 2 ^ e) q with hge | hlt
  · -- `b` is below a grid point that is below the number
    have hgrid := abs_sub_le_of_grid (k := 2 ^ 52) hhalf
    push_cast at hgrid
    refine hgrid.trans ?_
    rw [abs_of_nonpos (by linarith), abs_of_nonpos (by linarith)]
    linarith
  · -- the number is below a power of two, where the grid is finer
    obtain rfl : m = 2 ^ 52 := by
      by_contra hne
      have hm' : (2 ^ 52 + 1 : ℚ) ≤ m := by exact_mod_cast (by omega : 2 ^ 52 + 1 ≤ m)
      have hvalue := mul_le_mul_of_nonneg_right hm' hpos.le
      have hnear := (abs_le.mp hhalf).2
      push_cast at hnear
      linarith
    have hend := low_le_of_holds hlow.ne' h
    have hfine : (2 : ℚ) ^ e = 2 * 2 ^ (e - 1) := by
      rw [show e = 1 + (e - 1) by ring, two_zpow_add, zpow_one, add_sub_cancel_left]
    have hsame : ((2 ^ 52 : ℕ) : ℚ) * 2 ^ e = (2 ^ 53 : ℤ) * 2 ^ (e - 1) := by
      rw [hfine]
      push_cast
      ring
    rcases hb.on_grid (e - 1) with ⟨k, rfl⟩ | ⟨-, hfar⟩
    · rw [hsame]
      refine abs_sub_le_of_grid ?_
      rw [← hsame, Nat.cast_pow, Nat.cast_ofNat, abs_of_nonneg (by linarith)]
      linarith
    · rw [Nat.cast_pow, Nat.cast_ofNat, abs_of_nonneg (by linarith), abs_of_nonpos (by linarith)]
      linarith

end RoundingInterval

/-! ### Decimals with few digits -/

/-- Whole multiples of a power of two, up to the largest significand and one more. -/
theorem representable_mul_two_zpow {k : ℕ} {e : ℤ} (hk : k ≤ 2 ^ 53) (he : -1074 ≤ e) :
    Representable (k * 2 ^ e) := by
  rcases hk.lt_or_eq with hlt | rfl
  · exact ⟨k, e, by rw [Nat.abs_cast]; exact_mod_cast hlt, he, rfl⟩
  · refine ⟨1, e + 53, by norm_num, by omega, ?_⟩
    rw [two_zpow_add]
    push_cast
    ring

/-- **A decimal with few places on a binary grid** is a double. -/
theorem representable_of_mul_eq {c n k : ℕ} {j : ℤ} (hc : c ≤ 2 ^ 53) (hn : n ≤ 22)
    (h : (c : ℚ) * (10 ^ n)⁻¹ = j * (2 ^ k)⁻¹) : Representable (c * (10 ^ n)⁻¹) := by
  have hwhole : (c : ℤ) * 2 ^ k = j * 10 ^ n := by
    have hrational : (c : ℚ) * 2 ^ k = j * 10 ^ n := by
      field_simp at h
      linarith
    exact_mod_cast hrational
  -- the fives are in the coefficient, since there are none in the power of two
  have hdvd : (5 : ℤ) ^ n ∣ c := by
    have hproduct : (5 : ℤ) ^ n ∣ c * 2 ^ k := by
      rw [hwhole, show (10 : ℤ) = 5 * 2 by norm_num, mul_pow]
      exact ⟨j * 2 ^ n, by ring⟩
    exact (IsCoprime.pow (by norm_num : IsCoprime (5 : ℤ) 2)).dvd_of_dvd_mul_right hproduct
  obtain ⟨quotient, hquotient⟩ : 5 ^ n ∣ c := by exact_mod_cast hdvd
  have hle : quotient ≤ 2 ^ 53 := by
    refine le_trans ?_ hc
    rw [hquotient]
    exact Nat.le_mul_of_pos_left _ (by positivity)
  have hvalue : (c : ℚ) * (10 ^ n)⁻¹ = quotient * 2 ^ (-(n : ℤ)) := by
    rw [hquotient, show (10 : ℚ) = 5 * 2 by norm_num, mul_pow, zpow_neg, zpow_natCast]
    push_cast
    field_simp
  rw [hvalue]
  exact representable_mul_two_zpow hle (by omega)

/-- A decimal that is short as it is written: with one place behind the point its digits make a number
of at most `2 ^ 53`, and it has at most 22 places. -/
structure Digits.IsShort (d : Digits) : Prop where
  coefficient : d.coefficient * 10 ^ (d.exponent + 1).toNat ≤ 2 ^ 53
  exponent : -22 ≤ d.exponent

instance (d : Digits) : Decidable d.IsShort :=
  decidable_of_iff (d.coefficient * 10 ^ (d.exponent + 1).toNat ≤ 2 ^ 53 ∧ -22 ≤ d.exponent)
    ⟨fun h => ⟨h.1, h.2⟩, fun h => ⟨h.1, h.2⟩⟩

variable {d : Digits} {y : Float} {v : ℚ}

/-- Such a decimal as a quotient. -/
theorem Digits.IsShort.exists_value (h : d.IsShort) :
    ∃ c n : ℕ, c ≤ 2 ^ 53 ∧ n ≤ 22 ∧ d.value = c * (10 ^ n)⁻¹ := by
  have hexponent := h.exponent
  rcases lt_or_ge d.exponent 0 with hneg | hnonneg
  · obtain ⟨n, hn⟩ : ∃ n : ℕ, d.exponent = -n := ⟨d.exponent.natAbs, by omega⟩
    refine ⟨d.coefficient, n, ?_, by omega, by rw [value, hn, zpow_neg, zpow_natCast]⟩
    exact (Nat.le_mul_of_pos_right _ (by positivity)).trans h.coefficient
  · obtain ⟨n, hn⟩ : ∃ n : ℕ, d.exponent = n := ⟨d.exponent.toNat, by omega⟩
    refine ⟨d.coefficient * 10 ^ n, 0, ?_, by omega, ?_⟩
    · refine le_trans (Nat.mul_le_mul_left _ ?_) h.coefficient
      exact Nat.pow_le_pow_right (by norm_num) (by omega)
    · rw [value, hn, zpow_natCast]
      push_cast
      simp

/-- **A short decimal** is nearest to one double alone. -/
theorem Digits.IsShort.toRat_eq (h : d.IsShort) (hv : Representable v)
    (hnearest : ∀ b, Representable b → |v - d.value| ≤ |b - d.value|) (hy : IsRounding d.value y) :
    toRat y = v := by
  obtain ⟨c, n, hc, hn, hvalue⟩ := h.exists_value
  have hsame : |v - d.value| = |toRat y - d.value| :=
    le_antisymm (hnearest _ (representable_toRat y)) (hy.nearest _ hv)
  rcases abs_eq_abs.mp hsame with heq | heq
  · linarith
  · -- the decimal is in the middle, so it is on the grid of half the smallest double
    obtain ⟨i, hi⟩ := (hv.on_grid (-1074)).resolve_right fun hbad => lt_irrefl _ hbad.1
    obtain ⟨j, hj⟩ := exists_mul_smallest y
    obtain ⟨k, hk⟩ : ∃ k : ℕ, smallest = (2 ^ k)⁻¹ :=
      ⟨1074, by rw [smallest, zpow_neg, zpow_ofNat]⟩
    have hmiddle : d.value = (i + j : ℤ) * (2 ^ (k + 1))⁻¹ := by
      rw [← smallest] at hi
      rw [pow_succ, mul_inv, ← hk, Int.cast_add]
      linarith
    rw [hvalue] at hmiddle
    have hrepresentable := representable_of_mul_eq hc hn hmiddle
    rw [← hvalue] at hrepresentable
    have hexact := hy.toRat_eq hrepresentable
    linarith

end BlockAffinity.Decimal
