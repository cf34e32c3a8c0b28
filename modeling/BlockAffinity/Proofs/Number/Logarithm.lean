import BlockAffinity.Proofs.Number.Overflow
import Mathlib.Analysis.SpecialFunctions.Log.Base
import Mathlib.Analysis.SpecialFunctions.Pow.Real

/-!
# BlockAffinity.Proofs.Number.Logarithm

**Doubles with a logarithm of choice.** The logarithm of doubles comes from the system, so what it does is
known from its documentation only: the logarithm of infinity is infinity, and that of a positive double
is close to the real one. `IsBinaryLog` asks for no more than this, with an error of one where an actual
logarithm has one in the last place. Everything else about doubles stays as it is (`withLog`), and with the
logarithm of the system it is the number system that the program runs on (`withLog_log2`).

Rounding the real logarithm down is enough to be a binary logarithm (`isBinaryLog_floorLog`).
-/

namespace BlockAffinity.Double

open Scalar
open Float.Model.UnpackedFloat (Sign)

/-- Doubles with a logarithm of choice. -/
@[reducible] def withLog (log2 : Float → Float) : Scalar Float := { (inferInstance : Scalar Float) with log2 }

theorem withLog_log2 : withLog Float.log2 = (inferInstance : Scalar Float) := rfl

theorem isFinite_withLog (log2 : Float → Float) : @isFinite Float (withLog log2) = isFinite := rfl

theorem lt_withLog (log2 : Float → Float) : @lt Float (withLog log2) = lt := rfl

theorem zero_withLog (log2 : Float → Float) : @zero Float (withLog log2) = zero := rfl

/-- A logarithm to base two, up to an error of one. -/
structure IsBinaryLog (log2 : Float → Float) : Prop where
  log2_infinity : log2 infinity = infinity
  isFinite_log2 : ∀ x, isFinite x = true → 0 < toRat x → isFinite (log2 x) = true
  abs_sub_logb_le : ∀ x, isFinite x = true → 0 < toRat x →
    |(toRat (log2 x) : ℝ) - Real.logb 2 (toRat x : ℝ)| ≤ 1

variable {log2 : Float → Float} {x : Float} {k : ℤ}

theorem intCast_le_logb (h : 2 ^ k ≤ toRat x) : (k : ℝ) ≤ Real.logb 2 (toRat x : ℝ) := by
  have hreal := (Rat.cast_le (K := ℝ)).mpr h
  rw [Rat.cast_zpow, Rat.cast_ofNat] at hreal
  rw [Real.le_logb_iff_rpow_le one_lt_two ((zpow_pos two_pos k).trans_le hreal), Real.rpow_intCast]
  exact hreal

theorem logb_le_intCast (hpos : 0 < toRat x) (h : toRat x ≤ 2 ^ k) :
    Real.logb 2 (toRat x : ℝ) ≤ (k : ℝ) := by
  have hreal := (Rat.cast_le (K := ℝ)).mpr h
  rw [Rat.cast_zpow, Rat.cast_ofNat] at hreal
  rw [Real.logb_le_iff_le_rpow one_lt_two (by exact_mod_cast hpos), Real.rpow_intCast]
  exact hreal

/-- **The logarithm of a double between powers of two** is between their exponents, up to one. -/
theorem IsBinaryLog.within (h : IsBinaryLog log2) {n : ℕ} (hfinite : isFinite x = true)
    (hlow : 2 ^ (-n : ℤ) ≤ toRat x) (hhigh : toRat x ≤ 2 ^ (n : ℤ)) : Within (n + 1) (log2 x) := by
  have hpos : 0 < toRat x := (two_zpow_pos _).trans_le hlow
  refine ⟨h.isFinite_log2 x hfinite hpos, ?_⟩
  obtain ⟨hbelow, habove⟩ := abs_le.mp (h.abs_sub_logb_le x hfinite hpos)
  have hleft := intCast_le_logb hlow
  have hright := logb_le_intCast hpos hhigh
  push_cast at hleft hright
  have hreal : |(toRat (log2 x) : ℝ)| ≤ n + 1 := abs_le.mpr ⟨by linarith, by linarith⟩
  exact_mod_cast hreal

/-! ### The logarithm rounded down -/

/-- A whole number as a double. -/
def ofInt (k : ℤ) : Float := if 0 ≤ k then ofNat k.toNat else zero - ofNat (-k).toNat

theorem toRat_ofInt (h : |k| ≤ 2 ^ 53) : isFinite (ofInt k) = true ∧ toRat (ofInt k) = k := by
  obtain ⟨hlow, hhigh⟩ := abs_le.mp h
  rw [ofInt]
  split_ifs with hsign
  · have hn : k.toNat ≤ 2 ^ 53 := by omega
    refine ⟨(isRounding_ofNat_of_le hn).finite, ?_⟩
    rw [toRat_ofNat hn]
    exact_mod_cast Int.toNat_of_nonneg hsign
  · have hn : (-k).toNat ≤ 2 ^ 53 := by omega
    have hk : ((-k).toNat : ℚ) = -k := by exact_mod_cast Int.toNat_of_nonneg (by omega)
    have hexact : toRat (zero : Float) - toRat (ofNat (-k).toNat : Float) = k := by
      rw [toRat_zero, toRat_ofNat hn, hk, zero_sub, neg_neg]
    have hrepresentable : Representable (k : ℚ) := by
      rw [← neg_neg (k : ℚ), ← hk]
      exact (representable_of_le hn).neg
    have hlargest : |(k : ℚ)| ≤ largest :=
      le_trans (by exact_mod_cast h) (two_pow_le_largest (n := 53) (by norm_num))
    have hround := isRounding_sub (x := zero) rfl (isRounding_ofNat_of_le hn).finite
      (by rw [hexact]; exact hlargest)
    rw [hexact] at hround
    exact ⟨hround.finite, hround.toRat_eq hrepresentable⟩

/-- The logarithm of a positive double, rounded down. -/
def floorLog (x : Float) : Float :=
  match unpacked x with
  | .finite .positive m e _ => ofInt (m.log2 + e)
  | _ => x

theorem exists_floorLog_eq (hpos : 0 < toRat x) :
    ∃ k : ℤ, |k| ≤ 2 ^ 53 ∧ floorLog x = ofInt k ∧ 2 ^ k ≤ toRat x ∧ toRat x ≤ 2 ^ (k + 1) := by
  have hcanonical := canonical_unpacked x
  have hencodable := encodable_unpacked x
  unfold floorLog
  rw [toRat] at hpos ⊢
  generalize unpacked x = u at *
  rcases u with _ | _ | _ | ⟨⟨⟩, m, e, hm⟩
  iterate 3 exact absurd hpos (lt_irrefl 0)
  · rw [value_finite_negative] at hpos
    exact absurd (value_positive_pos e hm) (by linarith)
  · have hmantissa : m < 2 ^ 53 := hcanonical.1
    have hexponent : -1074 ≤ e := hcanonical.2.1
    have htop : e ≤ 971 := hencodable
    have hvalue : value (.finite .positive m e hm) = (m : ℚ) * 2 ^ e := rfl
    have hlog : m.log2 < 53 := (Nat.log2_lt hm.ne').mpr hmantissa
    refine ⟨m.log2 + e, abs_le.mpr ⟨by omega, by omega⟩, rfl, ?_, ?_⟩
    · rw [hvalue, two_zpow_add, zpow_natCast]
      exact mul_le_mul_of_nonneg_right (by exact_mod_cast Nat.log2_self_le hm.ne') (two_zpow_pos e).le
    · rw [hvalue, add_right_comm, two_zpow_add]
      refine mul_le_mul_of_nonneg_right ?_ (two_zpow_pos e).le
      exact_mod_cast (Nat.lt_log2_self (n := m)).le

theorem isBinaryLog_floorLog : IsBinaryLog floorLog := by
  refine ⟨by rfl, fun x _ hpos => ?_, fun x _ hpos => ?_⟩
  · obtain ⟨k, hk, heq, -, -⟩ := exists_floorLog_eq hpos
    rw [heq]
    exact (toRat_ofInt hk).1
  · obtain ⟨k, hk, heq, hlow, hhigh⟩ := exists_floorLog_eq hpos
    have hleft := intCast_le_logb hlow
    have hright := logb_le_intCast hpos hhigh
    push_cast at hright
    rw [heq, (toRat_ofInt hk).2, Rat.cast_intCast, abs_le]
    exact ⟨by linarith, by linarith⟩

end BlockAffinity.Double
