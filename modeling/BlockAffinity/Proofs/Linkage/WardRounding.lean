import BlockAffinity.Proofs.Linkage.Monotone
import BlockAffinity.Proofs.Number.Counting
import BlockAffinity.Proofs.Number.SquareRoot

/-!
# BlockAffinity.Proofs.Linkage.WardRounding

**One Ward distance over doubles.** The update squares distances, so it can overflow or lose everything
to underflow where the distances themselves are far from either. `WardRounds` says that none of its
operations overflows; it holds if the weighted squares fit (`WardRounds.of_le`).

From there on the update is a chain of roundings, and two bounds follow:

* the square of the new distance exceeds the weighted mean of the old squares by at most six roundings
  (`WardRounds.inRange`);
* if the two merged clusters are not farther from each other than from the third one, then subtracting
  their term leaves at least the third distance, less a dozen roundings (`WardRounds.mul_le`).
-/

namespace BlockAffinity

open Scalar Double

namespace Clusters

/-! ### Weighted squares -/

/-- A squared distance times a number of blocks, as it is computed. -/
def wardTerm (n : ℕ) (d : Float) : Float := ofNat n * d * d

/-- Numbers of blocks are exact, so they may be added first. -/
theorem wardSquared_eq_terms (dki dkj dij : Float) {ni nj nk : ℕ} (hn : ni + nj + nk ≤ 2 ^ 53) :
    wardSquared dki dkj dij ni nj nk =
      (wardTerm (ni + nk) dki + wardTerm (nj + nk) dkj - wardTerm nk dij) /
        ofNat (ni + nj + nk) := by
  rw [wardSquared, countsUpTo.add ni nk (by omega), countsUpTo.add nj nk (by omega),
    countsUpTo.add ni nj (by omega), countsUpTo.add (ni + nj) nk hn]
  rfl

/-- Squares below this one are not told from it. Its root is far below the range of distances that Ward
linkage can tell from zero, and it is far above the smallest normal double. -/
def wardFloor : ℚ := 2 ^ (-1010 : ℤ)

theorem wardFloor_pos : 0 < wardFloor := two_zpow_pos (-1010)

theorem wardFloor_eq : wardFloor = (2 ^ (-505 : ℤ)) ^ 2 := by
  rw [wardFloor, sq, ← two_zpow_add]
  norm_num

theorem normal_le_wardFloor : 2 ^ (-1022 : ℤ) ≤ wardFloor :=
  zpow_le_zpow_right₀ (by norm_num) (by norm_num)

/-- Both multiplications of a weighted square round their exact results. -/
structure TermRounds (n : ℕ) (d : Float) : Prop where
  weighted : IsRounding (n * toRat d) (ofNat n * d)
  squared : IsRounding (toRat (ofNat n * d : Float) * toRat d) (wardTerm n d)

namespace TermRounds

variable {n : ℕ} {d : Float} {S c : ℚ}

/-- A number at or above a distance whose square is in between is at least the root of the floor. -/
theorem exists_bound (hS : toRat d ^ 2 ≤ S) (hfloor : wardFloor ≤ S) :
    ∃ D : ℚ, toRat d ≤ D ∧ 2 ^ (-505 : ℤ) ≤ D ∧ D ^ 2 ≤ S := by
  rcases le_total (toRat d) (2 ^ (-505 : ℤ)) with hsmall | hlarge
  · exact ⟨_, hsmall, le_rfl, wardFloor_eq ▸ hfloor⟩
  · exact ⟨_, le_rfl, hlarge, hS⟩

theorem weighted_normal (hn : 0 < n) (hc : 2 ^ (-505 : ℤ) ≤ c) : 2 ^ (-1022 : ℤ) ≤ n * c := by
  have hn' : (1 : ℚ) ≤ n := by exact_mod_cast hn
  calc (2 : ℚ) ^ (-1022 : ℤ) ≤ 2 ^ (-505 : ℤ) := zpow_le_zpow_right₀ (by norm_num) (by norm_num)
    _ ≤ c := hc
    _ ≤ n * c := le_mul_of_one_le_left ((two_zpow_pos _).le.trans hc) hn'

theorem floor_le_mul (hn : 0 < n) (hS : wardFloor ≤ S) : wardFloor ≤ n * S := by
  have hn' : (1 : ℚ) ≤ n := by exact_mod_cast hn
  exact hS.trans (le_mul_of_one_le_left (wardFloor_pos.le.trans hS) hn')

/-- Half of a square that Ward linkage can tell from zero is a normal number, and so is any multiple. -/
theorem normal_mul_sq {a b : ℚ} (hc : 2 ^ (-505 : ℤ) ≤ c) (ha : 1 ≤ a) (hb : 1 / 2 ≤ b) :
    2 ^ (-1022 : ℤ) ≤ a * c ^ 2 * b := by
  have hsquare : wardFloor ≤ c ^ 2 := wardFloor_eq ▸ pow_le_pow_left₀ (two_zpow_pos _).le hc 2
  calc (2 : ℚ) ^ (-1022 : ℤ) ≤ 2 ^ (-1010 : ℤ) * (1 / 2) := by
        rw [show (1 / 2 : ℚ) = 2 ^ (-1 : ℤ) by norm_num, ← two_zpow_add]
        exact zpow_le_zpow_right₀ (by norm_num) (by norm_num)
    _ ≤ a * c ^ 2 * b := by
        refine mul_le_mul (hsquare.trans (le_mul_of_one_le_left (sq_nonneg c) ha)) hb (by norm_num) ?_
        exact mul_nonneg (zero_le_one.trans ha) (sq_nonneg c)

/-- The product before the second rounding. -/
theorem weighted_mul_le (h : IsRounding (n * toRat d) (ofNat n * d)) (hn : 0 < n)
    (hd : 0 ≤ toRat d) (hS : toRat d ^ 2 ≤ S) (hfloor : wardFloor ≤ S) :
    toRat (ofNat n * d : Float) * toRat d ≤ n * S * (1 + unitRoundoff) := by
  obtain ⟨D, hdD, hD, hDS⟩ := exists_bound hS hfloor
  have hgrowth : 0 ≤ 1 + unitRoundoff := by linarith [unitRoundoff_pos]
  have hweighted : toRat (ofNat n * d : Float) ≤ n * D * (1 + unitRoundoff) :=
    h.toRat_le_mul (weighted_normal hn hD) (mul_le_mul_of_nonneg_left hdD (Nat.cast_nonneg n))
  calc toRat (ofNat n * d : Float) * toRat d
      ≤ n * D * (1 + unitRoundoff) * D :=
        mul_le_mul hweighted hdD hd
          (mul_nonneg (mul_nonneg (Nat.cast_nonneg n) ((two_zpow_pos _).le.trans hD)) hgrowth)
    _ = n * (1 + unitRoundoff) * D ^ 2 := by ring
    _ ≤ n * (1 + unitRoundoff) * S :=
        mul_le_mul_of_nonneg_left hDS (mul_nonneg (Nat.cast_nonneg n) hgrowth)
    _ = n * S * (1 + unitRoundoff) := by ring

theorem weighted_nonneg (h : IsRounding (n * toRat d) (ofNat n * d)) (hd : 0 ≤ toRat d) :
    0 ≤ toRat (ofNat n * d : Float) * toRat d :=
  mul_nonneg (h.le_toRat ⟨0, 0, by norm_num, by norm_num, by norm_num⟩
    (mul_nonneg (Nat.cast_nonneg n) hd)) hd

theorem nonneg (h : TermRounds n d) (hd : 0 ≤ toRat d) : 0 ≤ toRat (wardTerm n d) :=
  h.squared.le_toRat ⟨0, 0, by norm_num, by norm_num, by norm_num⟩ (weighted_nonneg h.weighted hd)

/-- A weighted square exceeds the exact one by at most two roundings. -/
theorem toRat_le (h : TermRounds n d) (hn : 0 < n) (hd : 0 ≤ toRat d) (hS : toRat d ^ 2 ≤ S)
    (hfloor : wardFloor ≤ S) : toRat (wardTerm n d) ≤ n * S * (1 + unitRoundoff) ^ 2 := by
  have hterm := floor_le_mul hn hfloor
  have hnormal : 2 ^ (-1022 : ℤ) ≤ n * S * (1 + unitRoundoff) :=
    (normal_le_wardFloor.trans hterm).trans
      (le_mul_of_one_le_right (wardFloor_pos.le.trans hterm) (by linarith [unitRoundoff_pos]))
  calc toRat (wardTerm n d) ≤ n * S * (1 + unitRoundoff) * (1 + unitRoundoff) :=
        h.squared.toRat_le_mul hnormal (weighted_mul_le h.weighted hn hd hS hfloor)
    _ = n * S * (1 + unitRoundoff) ^ 2 := by ring

/-- A weighted square falls short of the exact one by at most two roundings. -/
theorem le_toRat (h : TermRounds n d) (hn : 0 < n) (hc : 2 ^ (-505 : ℤ) ≤ c) (hcd : c ≤ toRat d) :
    n * c ^ 2 * (1 - unitRoundoff) ^ 2 ≤ toRat (wardTerm n d) := by
  have hcpos : 0 ≤ c := (two_zpow_pos _).le.trans hc
  have hshrink : 1 / 2 ≤ 1 - unitRoundoff := by norm_num [unitRoundoff]
  have hfirst : n * c * (1 - unitRoundoff) ≤ toRat (ofNat n * d : Float) :=
    h.weighted.mul_le_toRat (weighted_normal hn hc)
      (mul_le_mul_of_nonneg_left hcd (Nat.cast_nonneg n))
  have hnormal : 2 ^ (-1022 : ℤ) ≤ n * c ^ 2 * (1 - unitRoundoff) :=
    normal_mul_sq hc (by exact_mod_cast hn) hshrink
  have hproduct : n * c ^ 2 * (1 - unitRoundoff) ≤ toRat (ofNat n * d : Float) * toRat d := by
    calc n * c ^ 2 * (1 - unitRoundoff) = n * c * (1 - unitRoundoff) * c := by ring
      _ ≤ toRat (ofNat n * d : Float) * toRat d :=
          mul_le_mul hfirst hcd hcpos
            ((mul_nonneg (mul_nonneg (Nat.cast_nonneg n) hcpos) (by linarith)).trans hfirst)
  calc n * c ^ 2 * (1 - unitRoundoff) ^ 2 = n * c ^ 2 * (1 - unitRoundoff) * (1 - unitRoundoff) := by
        ring
    _ ≤ toRat (wardTerm n d) := h.squared.mul_le_toRat hnormal hproduct

/-- **Weighted squares that fit do not overflow on the way.** -/
theorem of_sq_le (hn : 0 < n) (hn' : n ≤ 2 ^ 53) (hfinite : isFinite d = true) (hd : 0 ≤ toRat d)
    (hS : toRat d ^ 2 ≤ S) (hfloor : wardFloor ≤ S) (hfits : n * S ≤ 2 ^ 1022) :
    TermRounds n d := by
  obtain ⟨D, hdD, hD, hDS⟩ := exists_bound hS hfloor
  have hDpos : 0 ≤ D := (two_zpow_pos _).le.trans hD
  have hbound : (n : ℚ) * D ≤ 2 ^ 1022 := by
    rcases le_total D 1 with hone | hone
    · calc (n : ℚ) * D ≤ n := mul_le_of_le_one_right (Nat.cast_nonneg n) hone
        _ ≤ 2 ^ 53 := natCast_le_two_pow hn'
        _ ≤ 2 ^ 1022 := pow_le_pow_right₀ one_le_two (by norm_num)
    · exact (mul_le_mul_of_nonneg_left ((le_self_pow₀ hone two_ne_zero).trans hDS)
        (Nat.cast_nonneg n)).trans hfits
  have hcount := isRounding_ofNat_of_le hn'
  have hvalue : toRat (ofNat n : Float) = n := toRat_ofNat hn'
  have hweighted : IsRounding (n * toRat d) (ofNat n * d) := by
    rw [← hvalue]
    refine isRounding_mul hcount.finite hfinite (abs_le_largest_of_le (n := 1022) (by norm_num) ?_ ?_)
    · rw [hvalue]
      exact mul_nonneg (Nat.cast_nonneg n) hd
    · rw [hvalue]
      exact (mul_le_mul_of_nonneg_left hdD (Nat.cast_nonneg n)).trans hbound
  refine ⟨hweighted, isRounding_mul hweighted.finite hfinite
    (abs_le_largest_of_le (n := 1023) le_rfl (weighted_nonneg hweighted hd) ?_)⟩
  calc toRat (ofNat n * d : Float) * toRat d
      ≤ n * S * (1 + unitRoundoff) := weighted_mul_le hweighted hn hd hS hfloor
    _ ≤ 2 ^ 1022 * 2 :=
        mul_le_mul hfits (by norm_num [unitRoundoff]) (by norm_num [unitRoundoff]) (by positivity)
    _ = 2 ^ 1023 := (pow_succ 2 1022).symm

end TermRounds

/-! ### The update -/

/-- The weighted squares of the two distances to the third cluster. -/
def wardGain (dki dkj : Float) (ni nj nk : ℕ) : Float := wardTerm (ni + nk) dki + wardTerm (nj + nk) dkj

/-- What is left of them without the term of the two merged clusters. -/
def wardRest (dki dkj dij : Float) (ni nj nk : ℕ) : Float :=
  wardGain dki dkj ni nj nk - wardTerm nk dij

/-- All operations of a Ward distance up to the root round their exact results. -/
structure WardRounds (dki dkj dij : Float) (ni nj nk : ℕ) : Prop where
  left : TermRounds (ni + nk) dki
  right : TermRounds (nj + nk) dkj
  merged : TermRounds nk dij
  add : IsRounding (toRat (wardTerm (ni + nk) dki) + toRat (wardTerm (nj + nk) dkj))
    (wardGain dki dkj ni nj nk)
  sub : IsRounding (toRat (wardGain dki dkj ni nj nk) - toRat (wardTerm nk dij))
    (wardRest dki dkj dij ni nj nk)
  div : IsRounding (toRat (wardRest dki dkj dij ni nj nk) / (ni + nj + nk : ℕ))
    (wardSquared dki dkj dij ni nj nk)

/-- A finite distance with a bound of its square. -/
structure SquareInRange (S : ℚ) (d : Float) : Prop where
  finite : isFinite d = true
  nonneg : 0 ≤ toRat d
  sq_le : toRat d ^ 2 ≤ S

namespace WardRounds

variable {dki dkj dij : Float} {ni nj nk : ℕ} {Si Sj Sij T c : ℚ}

/-- The weighted squares together do not exceed their bound by more than three roundings. -/
theorem gain_le (hi : 0 < ni) (hj : 0 < nj) (hleft : TermRounds (ni + nk) dki)
    (hright : TermRounds (nj + nk) dkj) (hki : SquareInRange Si dki) (hkj : SquareInRange Sj dkj)
    (hfloori : wardFloor ≤ Si) (hfloorj : wardFloor ≤ Sj)
    (hT : (ni + nk : ℕ) * Si + (nj + nk : ℕ) * Sj ≤ T) :
    toRat (wardTerm (ni + nk) dki) + toRat (wardTerm (nj + nk) dkj) ≤
      T * (1 + unitRoundoff) ^ 2 := by
  have hlefti := hleft.toRat_le (by omega) hki.nonneg hki.sq_le hfloori
  have hrightj := hright.toRat_le (by omega) hkj.nonneg hkj.sq_le hfloorj
  calc toRat (wardTerm (ni + nk) dki) + toRat (wardTerm (nj + nk) dkj)
      ≤ ((ni + nk : ℕ) * Si + (nj + nk : ℕ) * Sj) * (1 + unitRoundoff) ^ 2 := by linarith
    _ ≤ T * (1 + unitRoundoff) ^ 2 := mul_le_mul_of_nonneg_right hT (sq_nonneg _)

/-- Both weighted squares are at least the floor, so their bound is, for each block. -/
theorem floor_le_bound (hfloori : wardFloor ≤ Si) (hfloorj : wardFloor ≤ Sj)
    (hT : (ni + nk : ℕ) * Si + (nj + nk : ℕ) * Sj ≤ T) :
    (ni + nj + nk : ℕ) * wardFloor ≤ T := by
  have hpos := wardFloor_pos
  refine le_trans ?_ hT
  calc ((ni + nj + nk : ℕ) : ℚ) * wardFloor
      ≤ (ni + nk : ℕ) * wardFloor + (nj + nk : ℕ) * wardFloor := by
        push_cast
        linarith [mul_nonneg (Nat.cast_nonneg (α := ℚ) nk) hpos.le]
    _ ≤ (ni + nk : ℕ) * Si + (nj + nk : ℕ) * Sj :=
        add_le_add (mul_le_mul_of_nonneg_left hfloori (Nat.cast_nonneg _))
          (mul_le_mul_of_nonneg_left hfloorj (Nat.cast_nonneg _))

/-- **No operation overflows** if the weighted squares fit. -/
theorem of_le (hi : 0 < ni) (hj : 0 < nj) (hk : 0 < nk) (hn : ni + nj + nk ≤ 2 ^ 53)
    (hki : SquareInRange Si dki) (hkj : SquareInRange Sj dkj) (hij : SquareInRange Sij dij)
    (hfloori : wardFloor ≤ Si) (hfloorj : wardFloor ≤ Sj) (hfloorij : wardFloor ≤ Sij)
    (hT : (ni + nk : ℕ) * Si + (nj + nk : ℕ) * Sj ≤ T) (hfits : T ≤ 2 ^ 1021)
    (hfitsij : nk * Sij ≤ 2 ^ 1021) : WardRounds dki dkj dij ni nj nk := by
  have hle : (2 : ℚ) ^ 1021 ≤ 2 ^ 1022 := pow_le_pow_right₀ one_le_two (by norm_num)
  have hposi : 0 ≤ ((ni + nk : ℕ) : ℚ) * Si :=
    mul_nonneg (Nat.cast_nonneg _) (wardFloor_pos.le.trans hfloori)
  have hposj : 0 ≤ ((nj + nk : ℕ) : ℚ) * Sj :=
    mul_nonneg (Nat.cast_nonneg _) (wardFloor_pos.le.trans hfloorj)
  have hleft : TermRounds (ni + nk) dki := TermRounds.of_sq_le (by omega) (by omega) hki.finite
    hki.nonneg hki.sq_le hfloori (((le_add_of_nonneg_right hposj).trans hT).trans (hfits.trans hle))
  have hright : TermRounds (nj + nk) dkj := TermRounds.of_sq_le (by omega) (by omega) hkj.finite
    hkj.nonneg hkj.sq_le hfloorj (((le_add_of_nonneg_left hposi).trans hT).trans (hfits.trans hle))
  have hmerged : TermRounds nk dij := TermRounds.of_sq_le hk (by omega) hij.finite hij.nonneg
    hij.sq_le hfloorij (hfitsij.trans hle)
  have hadd : IsRounding (toRat (wardTerm (ni + nk) dki) + toRat (wardTerm (nj + nk) dkj))
      (wardGain dki dkj ni nj nk) := by
    refine isRounding_add hleft.squared.finite hright.squared.finite
      (abs_le_largest_of_le (n := 1023) le_rfl
        (add_nonneg (hleft.nonneg hki.nonneg) (hright.nonneg hkj.nonneg)) ?_)
    calc toRat (wardTerm (ni + nk) dki) + toRat (wardTerm (nj + nk) dkj)
        ≤ T * (1 + unitRoundoff) ^ 2 := gain_le hi hj hleft hright hki hkj hfloori hfloorj hT
      _ ≤ 2 ^ 1021 * 4 := by
          refine mul_le_mul hfits (by norm_num [unitRoundoff]) (sq_nonneg _) (by positivity)
      _ = 2 ^ 1023 := by
          rw [show (4 : ℚ) = 2 ^ 2 by norm_num, ← pow_add]
  have hgain : 0 ≤ toRat (wardGain dki dkj ni nj nk) :=
    hadd.le_toRat ⟨0, 0, by norm_num, by norm_num, by norm_num⟩
      (add_nonneg (hleft.nonneg hki.nonneg) (hright.nonneg hkj.nonneg))
  have hsub : IsRounding (toRat (wardGain dki dkj ni nj nk) - toRat (wardTerm nk dij))
      (wardRest dki dkj dij ni nj nk) :=
    InRange.isRounding_sub ⟨hadd.finite, hgain, le_rfl⟩
      ⟨hmerged.squared.finite, hmerged.nonneg hij.nonneg, le_rfl⟩
  refine ⟨hleft, hright, hmerged, hadd, hsub, ?_⟩
  have hcount : toRat (ofNat (ni + nj + nk) : Float) = (ni + nj + nk : ℕ) := toRat_ofNat hn
  have hone : (1 : ℚ) ≤ (ni + nj + nk : ℕ) := by exact_mod_cast (by omega : 1 ≤ ni + nj + nk)
  rw [wardSquared_eq_terms dki dkj dij hn, ← hcount]
  refine isRounding_div hsub.finite (isRounding_ofNat_of_le hn).finite ?_ ?_
  · rw [hcount]
    exact (zero_lt_one.trans_le hone).ne'
  · rw [hcount, abs_div, abs_of_pos (zero_lt_one.trans_le hone)]
    exact (div_le_self (abs_nonneg _) hone).trans (abs_toRat_le_largest _)

/-- **The new distance** is finite, and its square exceeds the weighted mean of the old squares by at
most six roundings. -/
theorem inRange (h : WardRounds dki dkj dij ni nj nk) (hi : 0 < ni) (hj : 0 < nj)
    (hki : SquareInRange Si dki) (hkj : SquareInRange Sj dkj) (hij : 0 ≤ toRat dij)
    (hfloori : wardFloor ≤ Si) (hfloorj : wardFloor ≤ Sj)
    (hT : (ni + nk : ℕ) * Si + (nj + nk : ℕ) * Sj ≤ T) :
    SquareInRange (T / (ni + nj + nk : ℕ) * (1 + unitRoundoff) ^ 6)
      (wardDistance dki dkj dij ni nj nk) := by
  have hcount : (0 : ℚ) < (ni + nj + nk : ℕ) := by exact_mod_cast (by omega : 0 < ni + nj + nk)
  have hgrowth : 1 ≤ 1 + unitRoundoff := by linarith [unitRoundoff_pos]
  have hmean : wardFloor ≤ T / (ni + nj + nk : ℕ) := by
    rw [le_div_iff₀ hcount, mul_comm]
    exact floor_le_bound hfloori hfloorj hT
  have hnormal : ∀ e, 2 ^ (-1022 : ℤ) ≤ T / (ni + nj + nk : ℕ) * (1 + unitRoundoff) ^ e := fun e =>
    (normal_le_wardFloor.trans hmean).trans
      (le_mul_of_one_le_right (wardFloor_pos.le.trans hmean) (one_le_pow₀ hgrowth))
  have hTpos : 2 ^ (-1022 : ℤ) ≤ T * (1 + unitRoundoff) ^ 2 := by
    have hone : (1 : ℚ) ≤ (ni + nj + nk : ℕ) := by exact_mod_cast hcount
    calc (2 : ℚ) ^ (-1022 : ℤ) ≤ T / (ni + nj + nk : ℕ) * (1 + unitRoundoff) ^ 2 := hnormal 2
      _ ≤ T * (1 + unitRoundoff) ^ 2 := by
          refine mul_le_mul_of_nonneg_right (div_le_self ?_ hone) (sq_nonneg _)
          exact (mul_nonneg hcount.le wardFloor_pos.le).trans (floor_le_bound hfloori hfloorj hT)
  have hgain : toRat (wardGain dki dkj ni nj nk) ≤
      T * (1 + unitRoundoff) ^ 2 * (1 + unitRoundoff) :=
    h.add.toRat_le_mul hTpos (gain_le hi hj h.left h.right hki hkj hfloori hfloorj hT)
  -- subtracting is not off in this direction, since the minuend is a double
  have hrest : toRat (wardRest dki dkj dij ni nj nk) ≤ toRat (wardGain dki dkj ni nj nk) :=
    h.sub.toRat_le (representable_toRat _) (by linarith [h.merged.nonneg hij])
  have hsquared : toRat (wardSquared dki dkj dij ni nj nk) ≤
      T / (ni + nj + nk : ℕ) * (1 + unitRoundoff) ^ 3 * (1 + unitRoundoff) := by
    refine h.div.toRat_le_mul (hnormal 3) ?_
    rw [div_mul_eq_mul_div]
    exact div_le_div_of_nonneg_right (hrest.trans (hgain.trans_eq (by ring))) hcount.le
  have hraised : InRange (T / (ni + nj + nk : ℕ) * (1 + unitRoundoff) ^ 4)
      (maximum (wardSquared dki dkj dij ni nj nk) zero) :=
    inRange_maximum_zero h.div.finite (hsquared.trans_eq (by ring))
      ((two_zpow_pos _).le.trans (hnormal 4))
  obtain ⟨hfinite, hnonneg, hsq⟩ := hraised.sqrt (hnormal 4)
  rw [wardDistance_eq]
  exact ⟨hfinite, hnonneg, hsq.trans_eq (by ring)⟩

/-- What cancels: the merged clusters have no more blocks in common with the third one than there are
blocks at all. -/
theorem cancellation {N n : ℚ} (hn : 0 ≤ n) (hN : n ≤ N) :
    N * (1 - 9 * unitRoundoff) + n * (1 + unitRoundoff) ^ 2 ≤
      (N + n) * (1 - unitRoundoff) ^ 2 * (1 - unitRoundoff) := by
  have hunit := unitRoundoff_pos
  have hlow : 1 - 3 * unitRoundoff ≤ (1 - unitRoundoff) ^ 2 * (1 - unitRoundoff) := by
    norm_num [unitRoundoff]
  have hhigh : (1 + unitRoundoff) ^ 2 ≤ 1 + 3 * unitRoundoff := by norm_num [unitRoundoff]
  calc N * (1 - 9 * unitRoundoff) + n * (1 + unitRoundoff) ^ 2
      ≤ N * (1 - 9 * unitRoundoff) + n * (1 + 3 * unitRoundoff) := by
        linarith [mul_le_mul_of_nonneg_left hhigh hn]
    _ ≤ (N + n) * (1 - 3 * unitRoundoff) := by
        linarith [mul_le_mul_of_nonneg_right hN hunit.le]
    _ ≤ (N + n) * ((1 - unitRoundoff) ^ 2 * (1 - unitRoundoff)) :=
        mul_le_mul_of_nonneg_left hlow (by linarith)
    _ = (N + n) * (1 - unitRoundoff) ^ 2 * (1 - unitRoundoff) := by ring

/-- The weighted squares of two clusters at a distance from a third one. -/
theorem mul_le_gain (h : WardRounds dki dkj dij ni nj nk) (hi : 0 < ni) (hj : 0 < nj)
    (hc : 2 ^ (-505 : ℤ) ≤ c) (hki : c ≤ toRat dki) (hkj : c ≤ toRat dkj) :
    ((ni + nj + nk : ℕ) + nk) * c ^ 2 * (1 - unitRoundoff) ^ 2 * (1 - unitRoundoff) ≤
      toRat (wardGain dki dkj ni nj nk) := by
  have hone : (1 : ℚ) ≤ (ni + nj + nk : ℕ) := by exact_mod_cast (by omega : 1 ≤ ni + nj + nk)
  have hleft := h.left.le_toRat (by omega) hc hki
  have hright := h.right.le_toRat (by omega) hc hkj
  refine h.add.mul_le_toRat (TermRounds.normal_mul_sq hc ?_ (by norm_num [unitRoundoff])) ?_
  · linarith [Nat.cast_nonneg (α := ℚ) nk]
  · refine le_trans (le_of_eq ?_) (add_le_add hleft hright)
    push_cast
    ring

/-- What is left of them, if the merged clusters are not farther from each other. -/
theorem mul_le_rest (h : WardRounds dki dkj dij ni nj nk) (hi : 0 < ni) (hj : 0 < nj) (hk : 0 < nk)
    (hc : 2 ^ (-505 : ℤ) ≤ c) (hki : c ≤ toRat dki) (hkj : c ≤ toRat dkj) (hij : 0 ≤ toRat dij)
    (hijc : toRat dij ≤ c) :
    (ni + nj + nk : ℕ) * c ^ 2 * (1 - 9 * unitRoundoff) * (1 - unitRoundoff) ≤
      toRat (wardRest dki dkj dij ni nj nk) := by
  have hone : (1 : ℚ) ≤ (ni + nj + nk : ℕ) := by exact_mod_cast (by omega : 1 ≤ ni + nj + nk)
  have hfloor : wardFloor ≤ c ^ 2 := wardFloor_eq ▸ pow_le_pow_left₀ (two_zpow_pos _).le hc 2
  have hgain := h.mul_le_gain hi hj hc hki hkj
  have hmerged : toRat (wardTerm nk dij) ≤ nk * c ^ 2 * (1 + unitRoundoff) ^ 2 :=
    h.merged.toRat_le hk hij (pow_le_pow_left₀ hij hijc 2) hfloor
  refine h.sub.mul_le_toRat (TermRounds.normal_mul_sq hc hone (by norm_num [unitRoundoff])) ?_
  have hcancel := cancellation (N := (ni + nj + nk : ℕ)) (n := nk) (Nat.cast_nonneg nk)
    (by exact_mod_cast (by omega : nk ≤ ni + nj + nk))
  have hscaled := mul_le_mul_of_nonneg_right hcancel (sq_nonneg c)
  linarith

/-- The mean of what is left. -/
theorem mul_le_squared (h : WardRounds dki dkj dij ni nj nk) (hi : 0 < ni) (hj : 0 < nj)
    (hk : 0 < nk) (hc : 2 ^ (-505 : ℤ) ≤ c) (hki : c ≤ toRat dki) (hkj : c ≤ toRat dkj)
    (hij : 0 ≤ toRat dij) (hijc : toRat dij ≤ c) :
    c ^ 2 * (1 - 10 * unitRoundoff) * (1 - unitRoundoff) ≤
      toRat (wardSquared dki dkj dij ni nj nk) := by
  have hcount : (0 : ℚ) < (ni + nj + nk : ℕ) := by exact_mod_cast (by omega : 0 < ni + nj + nk)
  have hrest := h.mul_le_rest hi hj hk hc hki hkj hij hijc
  have hfactor : 1 - 10 * unitRoundoff ≤ (1 - 9 * unitRoundoff) * (1 - unitRoundoff) := by
    norm_num [unitRoundoff]
  have hnormal : 2 ^ (-1022 : ℤ) ≤ 1 * c ^ 2 * (1 - 10 * unitRoundoff) :=
    TermRounds.normal_mul_sq hc le_rfl (by norm_num [unitRoundoff])
  refine h.div.mul_le_toRat (by rwa [one_mul] at hnormal) ?_
  rw [le_div_iff₀ hcount]
  calc c ^ 2 * (1 - 10 * unitRoundoff) * (ni + nj + nk : ℕ)
      = (ni + nj + nk : ℕ) * c ^ 2 * (1 - 10 * unitRoundoff) := by ring
    _ ≤ (ni + nj + nk : ℕ) * c ^ 2 * ((1 - 9 * unitRoundoff) * (1 - unitRoundoff)) :=
        mul_le_mul_of_nonneg_left hfactor (mul_nonneg hcount.le (sq_nonneg c))
    _ = (ni + nj + nk : ℕ) * c ^ 2 * (1 - 9 * unitRoundoff) * (1 - unitRoundoff) := by ring
    _ ≤ toRat (wardRest dki dkj dij ni nj nk) := hrest

/-- **The new distance** is at least the distance of the third cluster, less a dozen roundings, if the
merged clusters were not farther from each other. -/
theorem mul_le (h : WardRounds dki dkj dij ni nj nk) (hi : 0 < ni) (hj : 0 < nj) (hk : 0 < nk)
    (hc : 2 ^ (-505 : ℤ) ≤ c) (hki : c ≤ toRat dki) (hkj : c ≤ toRat dkj) (hij : 0 ≤ toRat dij)
    (hijc : toRat dij ≤ c) :
    c * (1 - 12 * unitRoundoff) ≤ toRat (wardDistance dki dkj dij ni nj nk) := by
  have hcpos : 0 < c := (two_zpow_pos _).trans_le hc
  have hroot : (c * (1 - 11 * unitRoundoff)) ^ 2 ≤ toRat (wardSquared dki dkj dij ni nj nk) := by
    have hfactor : (1 - 11 * unitRoundoff) ^ 2 ≤ (1 - 10 * unitRoundoff) * (1 - unitRoundoff) := by
      norm_num [unitRoundoff]
    calc (c * (1 - 11 * unitRoundoff)) ^ 2 = c ^ 2 * (1 - 11 * unitRoundoff) ^ 2 := by ring
      _ ≤ c ^ 2 * ((1 - 10 * unitRoundoff) * (1 - unitRoundoff)) :=
          mul_le_mul_of_nonneg_left hfactor (sq_nonneg c)
      _ = c ^ 2 * (1 - 10 * unitRoundoff) * (1 - unitRoundoff) := by ring
      _ ≤ toRat (wardSquared dki dkj dij ni nj nk) :=
          h.mul_le_squared hi hj hk hc hki hkj hij hijc
  have hpositive : lt (wardSquared dki dkj dij ni nj nk) zero = false :=
    (lt_eq_false_iff_toRat h.div.finite rfl).mpr ((sq_nonneg _).trans hroot)
  have hsmall : 2 ^ (-1022 : ℤ) ≤ c * (1 - 11 * unitRoundoff) := by
    calc (2 : ℚ) ^ (-1022 : ℤ) ≤ 2 ^ (-505 : ℤ) * (1 / 2) := by
          rw [show (1 / 2 : ℚ) = 2 ^ (-1 : ℤ) by norm_num, ← two_zpow_add]
          exact zpow_le_zpow_right₀ (by norm_num) (by norm_num)
      _ ≤ c * (1 - 11 * unitRoundoff) :=
          mul_le_mul hc (by norm_num [unitRoundoff]) (by norm_num) hcpos.le
  rw [wardDistance_eq, maximum_zero_eq h.div.finite hpositive]
  calc c * (1 - 12 * unitRoundoff)
      ≤ c * ((1 - 11 * unitRoundoff) * (1 - unitRoundoff)) :=
        mul_le_mul_of_nonneg_left (by norm_num [unitRoundoff]) hcpos.le
    _ = c * (1 - 11 * unitRoundoff) * (1 - unitRoundoff) := by ring
    _ ≤ _ := mul_le_toRat_sqrt h.div.finite hsmall hroot

end WardRounds

end Clusters

end BlockAffinity
