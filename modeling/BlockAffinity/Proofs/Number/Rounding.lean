import BlockAffinity.Proofs.Number.Nonnegative
import Mathlib.Algebra.Order.Field.Power
import Mathlib.Tactic.Linarith
import Mathlib.Tactic.LinearCombination
import Mathlib.Tactic.NormNum
import Mathlib.Tactic.Positivity
import Mathlib.Tactic.Ring

/-!
# BlockAffinity.Proofs.Number.Rounding

**Arithmetic on doubles rounds to nearest.** `value` reads a double as a rational number, and
`Rounds v u` says that no representable number is closer to `v` than the one that `u` stands for.
Every operation that scoring uses yields a rounding of the exact result; which of two equally close
numbers it picks is left open.

The argument has three layers:

* `Represents` follows the exact number through the shifts of a mantissa: what is shifted out is
  kept as a round bit and as a rest below one half, which the sticky bit tells from zero;
* `rounds_roundWithAccuracy` rounds a mantissa that is long enough;
* each operation is reduced to that by finding a mantissa with enough bits.

Representable numbers have no upper bound here. That a rounding fits the encoding is a matter of its
size alone (`unpack_pack_of_canonical`).
-/

namespace BlockAffinity.Double

open Float.Model Float.Model.UnpackedFloat

/-- The number that a double stands for, zero for infinities and NaN. -/
def value : UnpackedFloat → ℚ
  | .finite sign mantissa exponent _ => (sign.apply mantissa : ℤ) * 2 ^ exponent
  | _ => 0

/-- A mantissa and an exponent as in the encoding, which fixes them; the exponent may be too large. -/
def Canonical : UnpackedFloat → Prop
  | .finite _ mantissa exponent _ =>
      mantissa < 2 ^ 53 ∧ -1074 ≤ exponent ∧ (2 ^ 52 ≤ mantissa ∨ exponent = -1074)
  | _ => True

/-- A number that a double stands for, or would stand for if exponents could be larger. -/
def Representable (b : ℚ) : Prop :=
  ∃ k e : ℤ, |k| < 2 ^ 53 ∧ -1074 ≤ e ∧ b = k * 2 ^ e

/-- A finite double that is as close to `v` as doubles get. -/
structure Rounds (v : ℚ) (u : UnpackedFloat) : Prop where
  finite : u.isFinite = true
  canonical : Canonical u
  nearest : ∀ b, Representable b → |value u - v| ≤ |b - v|

theorem two_zpow_pos (e : ℤ) : (0 : ℚ) < 2 ^ e := zpow_pos (by norm_num) e

theorem two_zpow_add (e f : ℤ) : (2 : ℚ) ^ (e + f) = 2 ^ e * 2 ^ f := zpow_add₀ (by norm_num) e f

theorem two_zpow_add_natCast (e : ℤ) (n : ℕ) : (2 : ℚ) ^ (e + n) = 2 ^ e * 2 ^ n := by
  rw [two_zpow_add, zpow_natCast]

@[simp] theorem abs_apply (sign : Sign) (m : ℕ) : |sign.apply m| = m := by
  cases sign <;> simp [Sign.apply]

theorem apply_eq (sign : Sign) (n : ℤ) : sign.apply n = sign.apply 1 * n := by
  cases sign <;> simp [Sign.apply]

theorem apply_one_mul (s r : Sign) : (s * r).apply 1 = s.apply 1 * r.apply 1 := by
  cases s <;> cases r <;> rfl

theorem apply_one_div (s r : Sign) : (s / r).apply 1 = s.apply 1 * r.apply 1 := by
  cases s <;> cases r <;> rfl

theorem apply_one_mul_self (s : Sign) : s.apply 1 * s.apply 1 = 1 := by cases s <;> rfl

theorem abs_apply_mul_sub (sign : Sign) (m : ℕ) (x v : ℚ) :
    |(sign.apply m : ℤ) * x - (sign.apply 1 : ℤ) * v| = |m * x - v| := by
  cases sign
  · rw [← abs_neg]
    congr 1
    simp only [Sign.apply, Int.cast_neg, Int.cast_natCast, Int.cast_one]
    ring
  · simp [Sign.apply]

/-! ### The exact number behind a shifted mantissa -/

/-- The mantissa with its residual bits stands for `v` at exponent `t`: the round bit is one half,
and a rest below one half is zero unless the sticky bit is set. -/
def Represents (v : ℚ) (em : ExtendedMantissa) (t : ℤ) : Prop :=
  ∃ rest : ℚ, 0 ≤ rest ∧ rest < 1 / 2 ∧ (em.stickyBit = false → rest = 0) ∧
    v = (em.mantissa + (if em.roundBit then 1 / 2 else 0) + rest) * 2 ^ t

theorem represents_exact (m : ℕ) (e : ℤ) :
    Represents (m * 2 ^ e) (ExtendedMantissa.ofMantissaAndAccuracy m .exact) e :=
  ⟨0, by simp [ExtendedMantissa.ofMantissaAndAccuracy]⟩

namespace Represents

variable {v : ℚ} {em : ExtendedMantissa} {t : ℤ}

theorem shiftRightOne (h : Represents v em t) : Represents v em.shiftRightOne (t + 1) := by
  obtain ⟨rest, hrest, hrest', hsticky, rfl⟩ := h
  have hbit : (0 : ℚ) ≤ (if em.roundBit then 1 / 2 else 0) ∧
      (if em.roundBit then 1 / 2 else 0 : ℚ) ≤ 1 / 2 := by
    split_ifs <;> norm_num
  refine ⟨((if em.roundBit then 1 / 2 else 0) + rest) / 2, by linarith, by linarith, ?_, ?_⟩
  · intro hnone
    simp only [ExtendedMantissa.shiftRightOne, Bool.or_eq_false_iff] at hnone
    simp [hnone.1, hsticky hnone.2]
  · have hsplit : (em.mantissa : ℚ) = 2 * (em.mantissa / 2 : ℕ) + (em.mantissa % 2 : ℕ) := by
      exact_mod_cast (Nat.div_add_mod em.mantissa 2).symm
    have hlast : ((em.mantissa % 2 : ℕ) : ℚ) =
        2 * (if em.shiftRightOne.roundBit then 1 / 2 else 0) := by
      rcases Nat.mod_two_eq_zero_or_one em.mantissa with h | h <;>
        simp [ExtendedMantissa.shiftRightOne, h]
    have hhalf : em.shiftRightOne.mantissa = em.mantissa / 2 := rfl
    rw [two_zpow_add, zpow_one, hsplit, hlast, hhalf]
    ring

theorem shiftRight (h : Represents v em t) (n : ℕ) : Represents v (em >>> n) (t + n) := by
  induction n with
  | zero => simpa [HShiftRight.hShiftRight, Nat.repeat] using h
  | succ n ih =>
      rw [Nat.cast_succ, ← add_assoc]
      exact ih.shiftRightOne

/-- Dropping the residual bits stays below. -/
theorem mantissa_le (h : Represents v em t) : em.mantissa * 2 ^ t ≤ v := by
  obtain ⟨rest, hrest, -, -, rfl⟩ := h
  have hbit : (0 : ℚ) ≤ if em.roundBit then 1 / 2 else 0 := by split_ifs <;> norm_num
  exact mul_le_mul_of_nonneg_right (by linarith) (two_zpow_pos t).le

/-- Rounding the mantissa is off by at most half a unit. -/
theorem abs_roundedMantissa_sub_le (h : Represents v em t) :
    |em.roundedMantissa * 2 ^ t - v| ≤ 2 ^ t / 2 := by
  obtain ⟨rest, hrest, hrest', hsticky, rfl⟩ := h
  have hpos := two_zpow_pos t
  have hunit : |(em.roundedMantissa : ℚ) -
      (em.mantissa + (if em.roundBit then 1 / 2 else 0) + rest)| ≤ 1 / 2 := by
    rcases em with ⟨m, _ | _, _ | _⟩ <;>
      simp only [ExtendedMantissa.roundedMantissa, ExtendedMantissa.accuracy,
        Accuracy.roundToNearestEven, Bool.false_eq_true, if_false, if_true] at hsticky ⊢
    · rw [hsticky trivial, abs_le]
      constructor <;> linarith
    · rw [abs_le]
      constructor <;> linarith
    · -- a tie: the rest is zero, so either neighbour is half a unit away
      rw [hsticky trivial, abs_le]
      have hlast : m % 2 ≤ 1 := by omega
      have hlast' : ((m % 2 : ℕ) : ℚ) ≤ 1 := by exact_mod_cast hlast
      have hlast0 : (0 : ℚ) ≤ ((m % 2 : ℕ) : ℚ) := Nat.cast_nonneg _
      push_cast at hlast' hlast0 ⊢
      constructor <;> linarith
    · rw [abs_le]
      push_cast
      constructor <;> linarith
  rw [← sub_mul, abs_mul, abs_of_pos hpos]
  calc _ ≤ 1 / 2 * (2 : ℚ) ^ t := mul_le_mul_of_nonneg_right hunit hpos.le
    _ = 2 ^ t / 2 := by ring

end Represents

/-! ### Shifting to the target exponent -/

theorem targetExponent_binary64 (k : ℤ) :
    Format.binary64.targetExponent k = max (k - 53) (-1074) := by
  simp only [Format.targetExponent, Format.minExponent, Format.mantissaBits]
  norm_num

/-- The bits that a mantissa keeps when it is shifted to its target exponent. -/
theorem shiftToTargetExponent_spec {m : ℕ} {e : ℤ} {accuracy : Accuracy} {v : ℚ}
    (hv : Represents v (ExtendedMantissa.ofMantissaAndAccuracy m accuracy) e)
    (he : e ≤ Format.binary64.targetExponent (totalExponent m e)) :
    let shifted := shiftToTargetExponent .binary64 m e accuracy
    Represents v shifted.1 shifted.2 ∧ shifted.1.mantissa < 2 ^ 53 ∧ -1074 ≤ shifted.2 ∧
      (2 ^ 52 ≤ shifted.1.mantissa ∨ shifted.2 = -1074) := by
  obtain ⟨n, hn⟩ := Int.eq_ofNat_of_zero_le (sub_nonneg.mpr he)
  have hn' : (Format.binary64.targetExponent (totalExponent m e) - e).toNat = n := by omega
  have ht : e + n = max (m.log2 + 1 + e - 53) (-1074) := by
    rw [← totalExponent, ← targetExponent_binary64]
    omega
  simp only [shiftToTargetExponent, shiftToExponent, hn', mantissa_shiftRight,
    mantissa_ofMantissaAndAccuracy]
  refine ⟨hv.shiftRight n, ?_, by omega, ?_⟩
  · rw [Nat.div_lt_iff_lt_mul (Nat.two_pow_pos n), ← Nat.pow_add]
    exact Nat.lt_log2_self.trans_le (Nat.pow_le_pow_right (by norm_num) (by omega))
  · rcases max_cases (m.log2 + 1 + e - 53 : ℤ) (-1074) with ⟨hmax, -⟩ | ⟨hmax, -⟩
    · left
      have hlog : m.log2 = 52 + n := by omega
      have hne : m ≠ 0 := by
        rintro rfl
        rw [Nat.log2_zero] at hlog
        omega
      rw [Nat.le_div_iff_mul_le (Nat.two_pow_pos n), ← Nat.pow_add, ← hlog]
      exact Nat.log2_self_le hne
    · right
      omega

theorem shiftToTargetExponent_of_lt {r : ℕ} {t : ℤ} (hr : r < 2 ^ 53) (ht : -1074 ≤ t) :
    shiftToTargetExponent .binary64 r t .exact = (⟨r, false, false⟩, t) := by
  have hlog : r.log2 ≤ 52 := by
    rcases Nat.eq_zero_or_pos r with rfl | hpos
    · simp
    · exact Nat.lt_succ_iff.mp ((Nat.log2_lt hpos.ne').mpr hr)
  have hzero : (Format.binary64.targetExponent (totalExponent r t) - t).toNat = 0 := by
    rw [targetExponent_binary64]
    simp only [totalExponent]
    omega
  simp only [shiftToTargetExponent, shiftToExponent, hzero, HShiftRight.hShiftRight, Nat.repeat,
    ExtendedMantissa.ofMantissaAndAccuracy, Nat.cast_zero, add_zero]

theorem shiftToTargetExponent_two_pow {t : ℤ} (ht : -1074 ≤ t) :
    shiftToTargetExponent .binary64 (2 ^ 53) t .exact = (⟨2 ^ 52, false, false⟩, t + 1) := by
  have hone : (Format.binary64.targetExponent (totalExponent (2 ^ 53) t) - t).toNat = 1 := by
    rw [targetExponent_binary64]
    simp only [totalExponent, Nat.log2_two_pow]
    omega
  simp only [shiftToTargetExponent, shiftToExponent, hone, HShiftRight.hShiftRight, Nat.repeat,
    ExtendedMantissa.ofMantissaAndAccuracy, ExtendedMantissa.shiftRightOne, Nat.cast_one]
  rfl

/-- What rounding a mantissa makes of its first shift. -/
theorem value_roundWithAccuracy (sign : Sign) {m : ℕ} {e : ℤ} {accuracy : Accuracy}
    (hlt : (shiftToTargetExponent .binary64 m e accuracy).1.mantissa < 2 ^ 53)
    (hmin : -1074 ≤ (shiftToTargetExponent .binary64 m e accuracy).2)
    (hfull : 2 ^ 52 ≤ (shiftToTargetExponent .binary64 m e accuracy).1.mantissa ∨
      (shiftToTargetExponent .binary64 m e accuracy).2 = -1074) :
    let shifted := shiftToTargetExponent .binary64 m e accuracy
    let u := roundWithAccuracy .binary64 sign m e accuracy
    u.isFinite = true ∧ Canonical u ∧
      value u = (sign.apply shifted.1.roundedMantissa : ℤ) * 2 ^ shifted.2 := by
  obtain ⟨hle, hle'⟩ := roundedMantissa_mem (shiftToTargetExponent .binary64 m e accuracy).1
  unfold roundWithAccuracy
  dsimp only
  generalize (shiftToTargetExponent .binary64 m e accuracy).2 = t at *
  generalize (shiftToTargetExponent .binary64 m e accuracy).1.roundedMantissa = r at *
  rcases Nat.lt_or_ge r (2 ^ 53) with hr | hr
  · rw [shiftToTargetExponent_of_lt hr hmin]
    dsimp only
    split_ifs with hzero
    · subst hzero
      refine ⟨rfl, trivial, ?_⟩
      cases sign <;> simp [value, Sign.apply]
    · exact ⟨rfl, ⟨hr, hmin, hfull.imp_left (by omega)⟩, rfl⟩
  · -- rounding up has made the mantissa one bit longer
    obtain rfl : r = 2 ^ 53 := by omega
    rw [shiftToTargetExponent_two_pow hmin, dif_neg (by norm_num)]
    refine ⟨rfl, ⟨by norm_num, by omega, Or.inl le_rfl⟩, ?_⟩
    rw [value, two_zpow_add, zpow_one]
    cases sign <;> simp only [Sign.apply] <;> push_cast <;> ring

/-! ### Nearest numbers -/

/-- Numbers on the grid of spacing `2 ^ t` are at least a unit apart. -/
theorem abs_sub_le_of_grid {r k : ℤ} {t : ℤ} {v : ℚ} (hr : |r * 2 ^ t - v| ≤ 2 ^ t / 2) :
    |r * 2 ^ t - v| ≤ |k * 2 ^ t - v| := by
  rcases eq_or_ne r k with rfl | hne
  · exact le_rfl
  · have hunit : (1 : ℚ) ≤ |(k : ℚ) - r| := by
      have hint : 1 ≤ |k - r| := Int.one_le_abs (sub_ne_zero.mpr hne.symm)
      exact_mod_cast hint
    have hgap : (2 : ℚ) ^ t ≤ |(k : ℚ) * 2 ^ t - r * 2 ^ t| := by
      rw [← sub_mul, abs_mul, abs_of_pos (two_zpow_pos t)]
      exact le_mul_of_one_le_left (two_zpow_pos t).le hunit
    have htriangle := abs_sub_le ((k : ℚ) * 2 ^ t) v (r * 2 ^ t)
    rw [abs_sub_comm v] at htriangle
    linarith

/-- A representable number is on the grid, or below all mantissas with a leading bit. -/
theorem Representable.on_grid {b : ℚ} (hb : Representable b) (t : ℤ) :
    (∃ k : ℤ, b = k * 2 ^ t) ∨ (-1074 < t ∧ b ≤ 2 ^ 52 * 2 ^ t) := by
  obtain ⟨k, f, hk, hf, rfl⟩ := hb
  rcases le_or_gt t f with htf | hft
  · left
    obtain ⟨n, hn⟩ := Int.eq_ofNat_of_zero_le (sub_nonneg.mpr htf)
    refine ⟨k * 2 ^ n, ?_⟩
    have hf' : f = t + n := by omega
    rw [hf', two_zpow_add_natCast]
    push_cast
    ring
  · right
    refine ⟨by omega, ?_⟩
    have hk' : (k : ℚ) ≤ 2 ^ 53 := by exact_mod_cast (le_abs_self k).trans hk.le
    calc (k : ℚ) * 2 ^ f ≤ 2 ^ 53 * 2 ^ f := mul_le_mul_of_nonneg_right hk' (two_zpow_pos f).le
      _ = 2 ^ 52 * 2 ^ (f + 1) := by rw [two_zpow_add, zpow_one]; ring
      _ ≤ 2 ^ 52 * 2 ^ t := by
          refine mul_le_mul_of_nonneg_left ?_ (by norm_num)
          exact zpow_le_zpow_right₀ (by norm_num) (by omega)

theorem Representable.neg {b : ℚ} (hb : Representable b) : Representable (-b) := by
  obtain ⟨k, f, hk, hf, rfl⟩ := hb
  exact ⟨-k, f, by rwa [abs_neg], hf, by push_cast; ring⟩

theorem representable_apply_mul (sign : Sign) {b : ℚ} (hb : Representable b) :
    Representable ((sign.apply 1 : ℤ) * b) := by
  cases sign
  · simpa [Sign.apply] using hb.neg
  · simpa [Sign.apply] using hb

/-- **Rounding a mantissa** that has not been shifted too far rounds to nearest. -/
theorem rounds_roundWithAccuracy (sign : Sign) {m : ℕ} {e : ℤ} {accuracy : Accuracy} {v : ℚ}
    (hv : Represents v (ExtendedMantissa.ofMantissaAndAccuracy m accuracy) e)
    (he : e ≤ Format.binary64.targetExponent (totalExponent m e)) :
    Rounds ((sign.apply 1 : ℤ) * v) (roundWithAccuracy .binary64 sign m e accuracy) := by
  obtain ⟨hshifted, hlt, hmin, hfull⟩ := shiftToTargetExponent_spec hv he
  obtain ⟨hfinite, hcanonical, hvalue⟩ := value_roundWithAccuracy sign hlt hmin hfull
  refine ⟨hfinite, hcanonical, fun b hb => ?_⟩
  rw [hvalue, abs_apply_mul_sub]
  generalize shiftToTargetExponent .binary64 m e accuracy = shifted at *
  obtain ⟨em, t⟩ := shifted
  -- undo the sign on the other side, too
  have hother : |b - (sign.apply 1 : ℤ) * v| = |(sign.apply 1 : ℤ) * b - v| := by
    cases sign
    · rw [← abs_neg]
      congr 1
      simp only [Sign.apply]
      push_cast
      ring
    · simp [Sign.apply]
  rw [hother]
  have hhalf := hshifted.abs_roundedMantissa_sub_le
  rcases (representable_apply_mul sign hb).on_grid t with ⟨k, hk⟩ | ⟨ht, hbelow⟩
  · rw [hk]
    exact abs_sub_le_of_grid (r := em.roundedMantissa) hhalf
  · -- the mantissa has its leading bit, so `b` is below a grid point that is below `v`
    have hfull' : (2 ^ 52 : ℚ) ≤ em.mantissa := by
      rcases hfull with hfull | hfull
      · exact_mod_cast hfull
      · exact absurd hfull ht.ne'
    have hleading : (2 : ℚ) ^ 52 * 2 ^ t ≤ v :=
      (mul_le_mul_of_nonneg_right hfull' (two_zpow_pos t).le).trans hshifted.mantissa_le
    have hgrid := abs_sub_le_of_grid (r := em.roundedMantissa) (k := 2 ^ 52) hhalf
    refine hgrid.trans ?_
    rw [Int.cast_pow, Int.cast_ofNat, abs_of_nonpos (by linarith), abs_of_nonpos (by linarith)]
    linarith

theorem representable_value {u : UnpackedFloat} (h : Canonical u) : Representable (value u) := by
  rcases u with _ | _ | _ | ⟨sign, m, e, hm⟩
  iterate 3 exact ⟨0, 0, by norm_num, by norm_num, by simp [value]⟩
  refine ⟨sign.apply m, e, ?_, h.2.1, rfl⟩
  rw [abs_apply]
  exact_mod_cast h.1

/-- A double is its own rounding. -/
theorem rounds_self {u : UnpackedFloat} (hfinite : u.isFinite = true) (h : Canonical u) :
    Rounds (value u) u :=
  ⟨hfinite, h, fun b _ => by simp⟩

theorem rounds_zero (sign : Sign) : Rounds 0 (.zero sign) :=
  rounds_self (u := .zero sign) rfl trivial

/-! ### Operations -/

theorem shiftLeft_mul_two_zpow {e k : ℤ} (h : k ≤ e) (m : ℕ) :
    ((m <<< (e - k).toNat : ℕ) : ℚ) * 2 ^ k = m * 2 ^ e := by
  obtain ⟨n, hn⟩ := Int.eq_ofNat_of_zero_le (sub_nonneg.mpr h)
  have hn' : (e - k).toNat = n := by omega
  have he : e = k + n := by omega
  rw [hn', he, two_zpow_add_natCast, Nat.shiftLeft_eq]
  push_cast
  ring

theorem apply_shiftLeft_mul_two_zpow {e k : ℤ} (h : k ≤ e) (sign : Sign) (m : ℕ) :
    ((sign.apply (m <<< (e - k).toNat : ℕ) : ℤ) : ℚ) * 2 ^ k = (sign.apply m : ℤ) * 2 ^ e := by
  have hvalue := shiftLeft_mul_two_zpow h m
  cases sign <;> simp only [Sign.apply, Int.cast_neg, Int.cast_natCast, neg_mul, hvalue]

theorem rounds_round (sign : Sign) {m : ℕ} (hm : m ≠ 0) (e : ℤ) :
    Rounds ((sign.apply 1 : ℤ) * (m * 2 ^ e)) (UnpackedFloat.round .binary64 sign m e) := by
  unfold UnpackedFloat.round decreaseExponent
  dsimp only
  generalize ht : Format.binary64.targetExponent (totalExponent m e) = t
  have htotal : totalExponent (m <<< (e - t).toNat) (e - (e - t).toNat) = totalExponent m e := by
    simp only [totalExponent, log2_shiftLeft hm]
    push_cast
    ring
  have hrepresents := represents_exact (m <<< (e - t).toNat) (e - (e - t).toNat)
  have hvalue : ((m <<< (e - t).toNat : ℕ) : ℚ) * 2 ^ (e - (e - t).toNat) = m * 2 ^ e := by
    have hshift := shiftLeft_mul_two_zpow (show e - ((e - t).toNat : ℤ) ≤ e by omega) m
    rwa [sub_sub_cancel, Int.toNat_natCast] at hshift
  rw [hvalue] at hrepresents
  refine rounds_roundWithAccuracy sign hrepresents ?_
  rw [htotal, ht]
  omega

theorem rounds_normalize (k e : ℤ) (zeroSign : Sign) :
    Rounds (k * 2 ^ e) (UnpackedFloat.normalize .binary64 k e zeroSign) := by
  unfold UnpackedFloat.normalize
  rcases lt_trichotomy k 0 with hneg | rfl | hpos
  · have habs : ((-k).toNat : ℚ) = -k := by exact_mod_cast Int.toNat_of_nonneg (by omega : 0 ≤ -k)
    have hround := rounds_round .negative (m := (-k).toNat) (by omega) e
    rw [habs] at hround
    simpa [compare_lt_iff_lt.mpr hneg, Sign.apply] using hround
  · have hzero := rounds_self (u := .zero zeroSign) rfl trivial
    simpa [value] using hzero
  · have habs : (k.toNat : ℚ) = k := by exact_mod_cast Int.toNat_of_nonneg hpos.le
    have hround := rounds_round .positive (m := k.toNat) (by omega) e
    rw [habs] at hround
    simpa [compare_gt_iff_gt.mpr hpos, Sign.apply] using hround

section Operations

variable {x y : UnpackedFloat}

theorem rounds_add (hx : x.isFinite = true) (hy : y.isFinite = true) (hx' : Canonical x)
    (hy' : Canonical y) : Rounds (value x + value y) (UnpackedFloat.add .binary64 x y) := by
  rcases x with _ | _ | s | ⟨s, m, e, hm⟩ <;> try contradiction
  · rcases y with _ | _ | r | ⟨r, k, f, hk⟩ <;> try contradiction
    · rw [show value (.zero s) + value (.zero r) = 0 from add_zero 0]
      cases s <;> cases r <;> exact rounds_zero _
    · simpa [value, UnpackedFloat.add] using rounds_self hy hy'
  · rcases y with _ | _ | r | ⟨r, k, f, hk⟩ <;> try contradiction
    · simpa [value, UnpackedFloat.add] using rounds_self hx hx'
    · have hvalue : value (.finite s m e hm) + value (.finite r k f hk) =
          ((s.apply (m <<< (e - min e f).toNat : ℕ) + r.apply (k <<< (f - min e f).toNat : ℕ) : ℤ)
            : ℚ) * 2 ^ min e f := by
        rw [Int.cast_add, add_mul, apply_shiftLeft_mul_two_zpow (min_le_left e f),
          apply_shiftLeft_mul_two_zpow (min_le_right e f)]
        rfl
      rw [hvalue]
      exact rounds_normalize _ _ _

theorem value_finite_negative (m : ℕ) (e : ℤ) (hm : 0 < m) :
    value (.finite .negative m e hm) = -value (.finite .positive m e hm) := by
  simp [value, Sign.apply]

theorem value_neg (u : UnpackedFloat) : value u.neg = -value u := by
  rcases u with _ | _ | _ | ⟨⟨⟩, m, e, hm⟩
  iterate 3 exact neg_zero.symm
  · exact neg_eq_iff_eq_neg.mp (value_finite_negative m e hm).symm
  · exact value_finite_negative m e hm

theorem rounds_sub (hx : x.isFinite = true) (hy : y.isFinite = true) (hx' : Canonical x)
    (hy' : Canonical y) : Rounds (value x - value y) (UnpackedFloat.sub .binary64 x y) := by
  rcases x with _ | _ | s | ⟨s, m, e, hm⟩ <;> try contradiction
  · rcases y with _ | _ | r | ⟨r, k, f, hk⟩ <;> try contradiction
    · rw [show value (.zero s) - value (.zero r) = 0 from sub_zero 0]
      cases s <;> cases r <;> exact rounds_zero _
    · have hneg := rounds_self (u := .finite (-r) k f hk) rfl hy'
      have hvalue : value (.zero s) - value (.finite r k f hk) = value (.finite (-r) k f hk) := by
        rw [show (UnpackedFloat.finite (-r) k f hk) = (UnpackedFloat.finite r k f hk).neg from rfl,
          value_neg]
        simp [value]
      rw [hvalue]
      exact hneg
  · rcases y with _ | _ | r | ⟨r, k, f, hk⟩ <;> try contradiction
    · simpa [value, UnpackedFloat.sub] using rounds_self hx hx'
    · have hvalue : value (.finite s m e hm) - value (.finite r k f hk) =
          ((s.apply (m <<< (e - min e f).toNat : ℕ) - r.apply (k <<< (f - min e f).toNat : ℕ) : ℤ)
            : ℚ) * 2 ^ min e f := by
        rw [Int.cast_sub, sub_mul, apply_shiftLeft_mul_two_zpow (min_le_left e f),
          apply_shiftLeft_mul_two_zpow (min_le_right e f)]
        rfl
      rw [hvalue]
      exact rounds_normalize _ _ _

theorem totalExponent_mul_ge {m k : ℕ} (hm : m ≠ 0) (hk : k ≠ 0) :
    m.log2 + k.log2 ≤ (m * k).log2 := by
  rw [Nat.le_log2 (Nat.mul_ne_zero hm hk), Nat.pow_add]
  exact Nat.mul_le_mul (Nat.log2_self_le hm) (Nat.log2_self_le hk)

theorem rounds_mul (hx : x.isFinite = true) (hy : y.isFinite = true) (hx' : Canonical x)
    (hy' : Canonical y) : Rounds (value x * value y) (UnpackedFloat.mul .binary64 x y) := by
  rcases x with _ | _ | s | ⟨s, m, e, hm⟩ <;> try contradiction
  · rcases y with _ | _ | r | ⟨r, k, f, hk⟩ <;> try contradiction
    all_goals simpa [value, UnpackedFloat.mul] using rounds_self (u := .zero (s * r)) rfl trivial
  · rcases y with _ | _ | r | ⟨r, k, f, hk⟩ <;> try contradiction
    · simpa [value, UnpackedFloat.mul] using rounds_self (u := .zero (s * r)) rfl trivial
    · have hvalue : value (.finite s m e hm) * value (.finite r k f hk) =
          ((s * r).apply 1 : ℤ) * ((m * k : ℕ) * 2 ^ (e + f)) := by
        rw [value, value, two_zpow_add, apply_one_mul, apply_eq s, apply_eq r]
        push_cast
        ring
      rw [hvalue]
      refine rounds_roundWithAccuracy _ (represents_exact (m * k) (e + f)) ?_
      -- a mantissa without its leading bit comes with the least exponent
      have hlog := totalExponent_mul_ge hm.ne' hk.ne'
      have hm52 : 52 ≤ m.log2 ∨ e = -1074 := hx'.2.2.imp_left (Nat.le_log2 hm.ne').mpr
      have hk52 : 52 ≤ k.log2 ∨ f = -1074 := hy'.2.2.imp_left (Nat.le_log2 hk.ne').mpr
      rw [targetExponent_binary64]
      simp only [totalExponent]
      omega

/-- The remainder of a division says how to round its quotient. -/
theorem represents_quotient (m : ℕ) {n : ℕ} (hn : 0 < n) (e : ℤ) :
    Represents ((m : ℚ) / n * 2 ^ e)
      (ExtendedMantissa.ofMantissaAndAccuracy (m / n) (accuracyOfFraction (m % n) n)) e := by
  have hn' : (0 : ℚ) < n := by exact_mod_cast hn
  have hsplit : (m : ℚ) / n = (m / n : ℕ) + ((m % n : ℕ) : ℚ) / n := by
    rw [div_eq_iff hn'.ne', add_mul, div_mul_cancel₀ _ hn'.ne']
    exact_mod_cast (Nat.div_add_mod' m n).symm
  rw [hsplit]
  generalize m / n = q
  have hlt : m % n < n := Nat.mod_lt m hn
  generalize m % n = r at hlt
  unfold accuracyOfFraction
  rcases Nat.eq_zero_or_pos r with rfl | hpos
  · exact ⟨0, by simp [ExtendedMantissa.ofMantissaAndAccuracy]⟩
  · rw [if_neg hpos.ne']
    have hfraction : (0 : ℚ) ≤ r / n := by positivity
    rcases lt_trichotomy (2 * r) n with hless | heq | hmore
    · rw [compare_lt_iff_lt.mpr hless]
      have hless' : (2 * r : ℚ) < n := by exact_mod_cast hless
      refine ⟨r / n, hfraction, ?_, by simp [ExtendedMantissa.ofMantissaAndAccuracy], ?_⟩
      · rw [div_lt_iff₀ hn']
        linarith
      · simp [ExtendedMantissa.ofMantissaAndAccuracy]
    · rw [compare_eq_iff_eq.mpr heq]
      have hhalf : (r : ℚ) / n = 1 / 2 := by
        rw [div_eq_iff hn'.ne', ← heq]
        push_cast
        ring
      exact ⟨0, by simp [ExtendedMantissa.ofMantissaAndAccuracy, hhalf]⟩
    · rw [compare_gt_iff_gt.mpr hmore]
      have hmore' : (n : ℚ) < 2 * r := by exact_mod_cast hmore
      have hlt' : (r : ℚ) < n := by exact_mod_cast hlt
      refine ⟨r / n - 1 / 2, ?_, ?_, by simp [ExtendedMantissa.ofMantissaAndAccuracy], ?_⟩
      · rw [sub_nonneg, le_div_iff₀ hn']
        linarith
      · rw [sub_lt_iff_lt_add, div_lt_iff₀ hn']
        linarith
      · simp [ExtendedMantissa.ofMantissaAndAccuracy]

/-- The quotient has a leading bit where the two leading bits say. -/
theorem log2_quotient_ge {m k n : ℕ} (hm : m ≠ 0) (hk : k ≠ 0) (h : k.log2 + 1 ≤ m.log2 + n) :
    m.log2 + n ≤ ((m <<< n) / k).log2 + (k.log2 + 1) := by
  have hm' : 2 ^ m.log2 ≤ m := Nat.log2_self_le hm
  have hk' : k < 2 ^ (k.log2 + 1) := Nat.lt_log2_self
  obtain ⟨d, hd⟩ := Nat.exists_eq_add_of_le h
  have hquotient : 2 ^ d ≤ (m <<< n) / k := by
    rw [Nat.le_div_iff_mul_le (Nat.pos_of_ne_zero hk), Nat.shiftLeft_eq]
    calc 2 ^ d * k ≤ 2 ^ d * 2 ^ (k.log2 + 1) := Nat.mul_le_mul_left _ hk'.le
      _ = 2 ^ m.log2 * 2 ^ n := by rw [← Nat.pow_add, ← Nat.pow_add, hd, Nat.add_comm]
      _ ≤ m * 2 ^ n := Nat.mul_le_mul_right _ hm'
  have hne : (m <<< n) / k ≠ 0 := by
    have := Nat.two_pow_pos d
    omega
  have hlog := (Nat.le_log2 hne).mpr hquotient
  omega

theorem rounds_div (hx : x.isFinite = true) (hy : y.isFinite = true) (hzero : value y ≠ 0) :
    Rounds (value x / value y) (UnpackedFloat.div .binary64 x y) := by
  rcases y with _ | _ | r | ⟨r, k, f, hk⟩ <;> try contradiction
  rcases x with _ | _ | s | ⟨s, m, e, hm⟩ <;> try contradiction
  · simpa [value, UnpackedFloat.div] using rounds_zero (s / r)
  · unfold UnpackedFloat.div divCore
    dsimp only
    rw [targetExponent_binary64]
    simp only [totalExponent]
    generalize ht : min (e - f) (max ((m.log2 : ℤ) + 1 + e - (k.log2 + 1 + f) - 53) (-1074)) = t
    have hvalue : value (.finite s m e hm) / value (.finite r k f hk) =
        ((s / r).apply 1 : ℤ) * (((m <<< (e - f - t).toNat : ℕ) : ℚ) / k * 2 ^ t) := by
      have hshift := shiftLeft_mul_two_zpow (show t ≤ e - f by omega) m
      have hpower : (2 : ℚ) ^ e = 2 ^ (e - f) * 2 ^ f := by rw [← two_zpow_add, sub_add_cancel]
      have hdivisor : ((r.apply 1 : ℤ) : ℚ) * (r.apply 1 : ℤ) = 1 := by
        exact_mod_cast apply_one_mul_self r
      have hcancel : (m : ℚ) * 2 ^ (e - f) / k * k = m * 2 ^ (e - f) :=
        div_mul_cancel₀ _ (by exact_mod_cast hk.ne')
      rw [div_eq_iff hzero, value, value, apply_one_div, apply_eq s, apply_eq r k, hpower,
        div_mul_eq_mul_div, hshift]
      push_cast
      linear_combination
        (-(s.apply 1 : ℚ) * r.apply 1 * r.apply 1 * 2 ^ f) * hcancel -
          (s.apply 1 : ℚ) * m * 2 ^ (e - f) * 2 ^ f * hdivisor
    rw [hvalue]
    refine rounds_roundWithAccuracy _ (represents_quotient _ hk t) ?_
    rw [targetExponent_binary64]
    simp only [totalExponent]
    rcases max_cases ((m.log2 : ℤ) + 1 + e - (k.log2 + 1 + f) - 53) (-1074) with
      ⟨hmax, -⟩ | ⟨hmax, -⟩
    · have hlog := log2_quotient_ge (n := (e - f - t).toNat) hm.ne' hk.ne' (by omega)
      omega
    · omega

end Operations

end BlockAffinity.Double
