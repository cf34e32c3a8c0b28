import BlockAffinity.Decimal.Shortest
import BlockAffinity.Proofs.Number.Rounding

/-!
# BlockAffinity.Proofs.Decimal.Shortest

**The shortest decimal of a double is near it.** What the search finds on a grid lies in the rounding
interval (`RoundingInterval.holds_of_onGrid?`), and on the grid of seventeen digits it finds something:
the spacing there is less than what the interval leaves to the nearer side (`isSome_onGrid?`). So the
search ends with a decimal of at most seventeen digits in the interval (`isNear_shortest`).
-/

namespace BlockAffinity.Decimal

open Double

/-! ### Powers of ten -/

theorem ten_zpow_pos (e : ℤ) : (0 : ℚ) < 10 ^ e := zpow_pos (by norm_num) e

theorem ten_zpow_add (e f : ℤ) : (10 : ℚ) ^ (e + f) = 10 ^ e * 10 ^ f := zpow_add₀ (by norm_num) e f

/-- A power of ten as a quotient of two natural ones. -/
theorem ten_zpow_mul (e : ℤ) : (10 : ℚ) ^ e * 10 ^ (-e).toNat = 10 ^ e.toNat := by
  rw [← zpow_natCast, ← zpow_natCast, ← ten_zpow_add]
  congr 1
  omega

theorem mul_ten_zpow_mul (c unit : ℚ) (e : ℤ) :
    c * 10 ^ e * unit * 10 ^ (-e).toNat = c * (unit * 10 ^ e.toNat) := by
  have hpower := ten_zpow_mul e
  generalize (10 : ℚ) ^ (-e).toNat = up at hpower ⊢
  rw [← hpower]
  ring

/-- A power of two as a quotient of two natural ones. -/
theorem two_zpow_mul (e : ℤ) : (2 : ℚ) ^ e * 2 ^ (-e).toNat = 2 ^ e.toNat := by
  rw [← zpow_natCast, ← zpow_natCast, ← two_zpow_add]
  congr 1
  omega

/-- The number that a decimal stands for. -/
def Digits.value (d : Digits) : ℚ := d.coefficient * 10 ^ d.exponent

theorem Digits.value_pos {d : Digits} : 0 < d.value ↔ 0 < d.coefficient := by
  rw [value, mul_pos_iff_of_pos_right (ten_zpow_pos _), Nat.cast_pos]

/-! ### The search on one grid -/

namespace RoundingInterval

/-- The number lies in the interval, its ends included. -/
structure Holds (r : RoundingInterval) (q : ℚ) : Prop where
  low_le : (r.low : ℚ) / r.unit ≤ q
  le_high : q ≤ (r.high : ℚ) / r.unit

/-- The interval is not empty and holds its value. -/
structure IsProper (r : RoundingInterval) : Prop where
  unit_pos : 0 < r.unit
  low_le : r.low ≤ r.value
  le_high : r.value ≤ r.high

variable {r : RoundingInterval} {tie : Tie} {e : ℤ} {d : Digits}

/-- Points of a grid are compared with the ends of an interval over natural numbers. -/
theorem div_unit_le_iff (hunit : 0 < r.unit) (bound c : ℕ) (e : ℤ) :
    (bound : ℚ) / r.unit ≤ c * 10 ^ e ↔
      bound * 10 ^ (-e).toNat ≤ c * (r.unit * 10 ^ e.toNat) := by
  have hunit' : (0 : ℚ) < r.unit := by exact_mod_cast hunit
  have hup : (0 : ℚ) < 10 ^ (-e).toNat := by positivity
  rw [div_le_iff₀ hunit', ← mul_le_mul_iff_of_pos_right hup, mul_ten_zpow_mul]
  exact_mod_cast Iff.rfl

theorem le_div_unit_iff (hunit : 0 < r.unit) (bound c : ℕ) (e : ℤ) :
    (c : ℚ) * 10 ^ e ≤ bound / r.unit ↔
      c * (r.unit * 10 ^ e.toNat) ≤ bound * 10 ^ (-e).toNat := by
  have hunit' : (0 : ℚ) < r.unit := by exact_mod_cast hunit
  have hup : (0 : ℚ) < 10 ^ (-e).toNat := by positivity
  rw [le_div_iff₀ hunit', ← mul_le_mul_iff_of_pos_right hup, mul_ten_zpow_mul]
  exact_mod_cast Iff.rfl

/-- What is found on a grid is one of the two neighbours of the value, on the side that is in the
interval. -/
theorem onGrid?_cases (h : r.onGrid? tie e = some d) :
    d.exponent = e ∧
      ((d.coefficient = r.value * 10 ^ (-e).toNat / (r.unit * 10 ^ e.toNat) ∧
          r.low * 10 ^ (-e).toNat ≤ d.coefficient * (r.unit * 10 ^ e.toNat)) ∨
        (d.coefficient = r.value * 10 ^ (-e).toNat / (r.unit * 10 ^ e.toNat) + 1 ∧
          d.coefficient * (r.unit * 10 ^ e.toNat) ≤ r.high * 10 ^ (-e).toNat)) := by
  have hten : ∀ k, Nat.pow 10 k = 10 ^ k := fun _ => rfl
  unfold onGrid? at h
  simp only [hten] at h
  generalize r.value * 10 ^ (-e).toNat / (r.unit * 10 ^ e.toNat) = below at *
  generalize r.low * 10 ^ (-e).toNat = low at *
  generalize r.high * 10 ^ (-e).toNat = high at *
  generalize r.unit * 10 ^ e.toNat = unit at *
  -- an open interval has less in it
  have hlow : ∀ {b : Bool}, (if r.closed then decide (low ≤ below * unit)
      else decide (low < below * unit)) = b → b = true → low ≤ below * unit := by
    rintro _ rfl hb
    split at hb
    · exact of_decide_eq_true hb
    · exact (of_decide_eq_true hb).le
  have hhigh : ∀ {b : Bool}, (if r.closed then decide ((below + 1) * unit ≤ high)
      else decide ((below + 1) * unit < high)) = b → b = true → (below + 1) * unit ≤ high := by
    rintro _ rfl hb
    split at hb
    · exact of_decide_eq_true hb
    · exact (of_decide_eq_true hb).le
  split at h
  · rename_i hl hh
    cases h
    dsimp only
    split
    · exact ⟨rfl, .inr ⟨rfl, hhigh hh rfl⟩⟩
    · exact ⟨rfl, .inl ⟨rfl, hlow hl rfl⟩⟩
  · rename_i hl hh
    cases h
    exact ⟨rfl, .inl ⟨rfl, hlow hl rfl⟩⟩
  · rename_i hl hh
    cases h
    exact ⟨rfl, .inr ⟨rfl, hhigh hh rfl⟩⟩
  · cases h

/-- **What is found on a grid** lies in the interval, less than one step above its value. -/
theorem holds_of_onGrid? (hproper : r.IsProper) (h : r.onGrid? tie e = some d) :
    d.exponent = e ∧ r.Holds d.value ∧ d.value ≤ r.value / r.unit + 10 ^ e := by
  obtain ⟨hexponent, hcases⟩ := onGrid?_cases h
  have hunit : 0 < r.unit * 10 ^ e.toNat := Nat.mul_pos hproper.unit_pos (by positivity)
  have hbelow := Nat.div_mul_le_self (r.value * 10 ^ (-e).toNat) (r.unit * 10 ^ e.toNat)
  have habove := Nat.lt_div_mul_add (a := r.value * 10 ^ (-e).toNat) hunit
  have hlow := Nat.mul_le_mul_right (10 ^ (-e).toNat) hproper.low_le
  have hhigh := Nat.mul_le_mul_right (10 ^ (-e).toNat) hproper.le_high
  have hstep : ((r.value * 10 ^ (-e).toNat / (r.unit * 10 ^ e.toNat) : ℕ) : ℚ) * 10 ^ e ≤
      r.value / r.unit := (le_div_unit_iff hproper.unit_pos _ _ _).mpr hbelow
  have hten := ten_zpow_pos e
  refine ⟨hexponent, ?_⟩
  rw [Digits.value, hexponent]
  rcases hcases with ⟨hc, hin⟩ | ⟨hc, hin⟩
  · refine ⟨⟨(div_unit_le_iff hproper.unit_pos _ _ _).mpr hin,
      (le_div_unit_iff hproper.unit_pos _ _ _).mpr ?_⟩, ?_⟩
    · rw [hc]
      exact hbelow.trans hhigh
    · rw [hc]
      linarith
  · refine ⟨⟨(div_unit_le_iff hproper.unit_pos _ _ _).mpr ?_,
      (le_div_unit_iff hproper.unit_pos _ _ _).mpr hin⟩, ?_⟩
    · rw [hc, Nat.add_mul, Nat.one_mul]
      exact hlow.trans habove.le
    · rw [hc]
      push_cast
      linarith

/-- Where one of the two neighbours is well inside the interval, something is found. -/
theorem isSome_onGrid? (tie : Tie)
    (h : r.low * 10 ^ (-e).toNat <
          r.value * 10 ^ (-e).toNat / (r.unit * 10 ^ e.toNat) * (r.unit * 10 ^ e.toNat) ∨
      (r.value * 10 ^ (-e).toNat / (r.unit * 10 ^ e.toNat) + 1) * (r.unit * 10 ^ e.toNat) <
          r.high * 10 ^ (-e).toNat) : (r.onGrid? tie e).isSome := by
  have hten : ∀ k, Nat.pow 10 k = 10 ^ k := fun _ => rfl
  unfold onGrid?
  simp only [hten]
  generalize r.value * 10 ^ (-e).toNat / (r.unit * 10 ^ e.toNat) = below at *
  generalize r.low * 10 ^ (-e).toNat = low at *
  generalize r.high * 10 ^ (-e).toNat = high at *
  generalize r.unit * 10 ^ e.toNat = unit at *
  rcases h with hlow | hhigh
  · have hhit : (if r.closed then decide (low ≤ below * unit)
        else decide (low < below * unit)) = true := by
      split
      · exact decide_eq_true hlow.le
      · exact decide_eq_true hlow
    rw [hhit]
    split <;> first | rfl | contradiction
  · have hhit : (if r.closed then decide ((below + 1) * unit ≤ high)
        else decide ((below + 1) * unit < high)) = true := by
      split
      · exact decide_eq_true hhigh.le
      · exact decide_eq_true hhigh
    rw [hhit]
    split <;> first | rfl | contradiction

end RoundingInterval

/-! ### The position of the point -/

theorem pow_digitCount_le {n : ℕ} (h : 0 < n) : 10 ^ (digitCount n - 1) ≤ n := by
  by_contra hlt
  rw [not_le] at hlt
  rcases Nat.eq_zero_or_pos (digitCount n - 1) with hone | hpos
  · rw [hone] at hlt
    omega
  · have hle := (Nat.length_toDigits_le_iff (b := 10) (by decide) hpos).mpr hlt
    have hcount : 0 < digitCount n := Nat.length_toDigits_pos
    have hcount' : digitCount n ≤ digitCount n - 1 := hle
    omega

theorem lt_pow_digitCount (n : ℕ) : n < 10 ^ digitCount n :=
  (Nat.length_toDigits_le_iff (by decide) Nat.length_toDigits_pos).mp le_rfl

theorem ten_zpow_digitCount_le {n : ℕ} (h : 0 < n) : (10 : ℚ) ^ ((digitCount n : ℤ) - 1) ≤ n := by
  have hcount : 0 < digitCount n := Nat.length_toDigits_pos
  rw [show (digitCount n : ℤ) - 1 = ((digitCount n - 1 : ℕ) : ℤ) by omega, zpow_natCast]
  exact_mod_cast pow_digitCount_le h

theorem lt_ten_zpow_digitCount (n : ℕ) : (n : ℚ) < 10 ^ (digitCount n : ℤ) := by
  rw [zpow_natCast]
  exact_mod_cast lt_pow_digitCount n

/-- **The position** is the number of digits before the point. -/
theorem pointPosition_spec {numerator denominator : ℕ} (hn : 0 < numerator) (hd : 0 < denominator) :
    (10 : ℚ) ^ (pointPosition numerator denominator - 1) ≤ numerator / denominator ∧
      (numerator / denominator : ℚ) < 10 ^ pointPosition numerator denominator := by
  have hd' : (0 : ℚ) < denominator := by exact_mod_cast hd
  obtain ⟨guess, hguess⟩ : ∃ guess : ℤ, guess = digitCount numerator - digitCount denominator :=
    ⟨_, rfl⟩
  have hposition : pointPosition numerator denominator =
      if denominator * 10 ^ guess.toNat ≤ numerator * 10 ^ (-guess).toNat then guess + 1
      else guess := by
    rw [hguess]
    rfl
  have htest : denominator * 10 ^ guess.toNat ≤ numerator * 10 ^ (-guess).toNat ↔
      (10 : ℚ) ^ guess ≤ numerator / denominator := by
    have hup : (0 : ℚ) < 10 ^ (-guess).toNat := by positivity
    rw [le_div_iff₀ hd', ← mul_le_mul_iff_of_pos_right hup, ← one_mul ((10 : ℚ) ^ guess),
      mul_ten_zpow_mul, one_mul]
    exact_mod_cast Iff.rfl
  rw [hposition]
  split_ifs with hle
  · rw [add_sub_cancel_right]
    refine ⟨htest.mp hle, ?_⟩
    rw [div_lt_iff₀ hd']
    calc (numerator : ℚ) < 10 ^ (digitCount numerator : ℤ) := lt_ten_zpow_digitCount numerator
      _ = 10 ^ (guess + 1) * 10 ^ ((digitCount denominator : ℤ) - 1) := by
          rw [← ten_zpow_add, hguess]
          congr 1
          omega
      _ ≤ 10 ^ (guess + 1) * denominator :=
          mul_le_mul_of_nonneg_left (ten_zpow_digitCount_le hd) (ten_zpow_pos _).le
  · refine ⟨?_, not_le.mp fun hge => hle (htest.mpr hge)⟩
    rw [le_div_iff₀ hd']
    calc (10 : ℚ) ^ (guess - 1) * denominator
        ≤ 10 ^ (guess - 1) * 10 ^ (digitCount denominator : ℤ) :=
          mul_le_mul_of_nonneg_left (lt_ten_zpow_digitCount denominator).le (ten_zpow_pos _).le
      _ = 10 ^ ((digitCount numerator : ℤ) - 1) := by
          rw [← ten_zpow_add, hguess]
          congr 1
          omega
      _ ≤ numerator := ten_zpow_digitCount_le hn

/-! ### Rounding intervals of doubles -/

namespace RoundingInterval

variable {m : ℕ} {e : ℤ}

theorem isProper_ofFinite (m : ℕ) (e : ℤ) : (ofFinite m e).IsProper where
  unit_pos := Nat.two_pow_pos _
  low_le := Nat.mul_le_mul_right _ (Nat.sub_le _ _)
  le_high := Nat.mul_le_mul_right _ (Nat.le_add_right _ _)

/-- The scale of an interval over its unit. -/
theorem mul_scale_div_unit (c : ℕ) (e : ℤ) :
    ((c * 2 ^ (e - 2).toNat : ℕ) : ℚ) / (2 ^ (2 - e).toNat : ℕ) = c * (2 ^ e / 4) := by
  have hpower := two_zpow_mul (e - 2)
  rw [neg_sub] at hpower
  have hquarter : (2 : ℚ) ^ (e - 2) = 2 ^ e / 4 := by
    rw [sub_eq_add_neg, two_zpow_add]
    norm_num
    ring
  rw [← hquarter, div_eq_iff (by positivity)]
  push_cast
  rw [mul_assoc, hpower]

theorem value_ofFinite (m : ℕ) (e : ℤ) :
    ((ofFinite m e).value : ℚ) / (ofFinite m e).unit = m * 2 ^ e := by
  have hvalue := mul_scale_div_unit (4 * m) e
  push_cast at hvalue
  have hsame : ((ofFinite m e).value : ℚ) / (ofFinite m e).unit =
      (4 * m * 2 ^ (e - 2).toNat : ℕ) / (2 ^ (2 - e).toNat : ℕ) := rfl
  rw [hsame]
  push_cast
  rw [hvalue]
  ring

/-- **The interval of a double** reaches half a unit in the last place to either side, at most. -/
theorem abs_sub_le_of_holds {q : ℚ} (h : (ofFinite m e).Holds q) : |q - m * 2 ^ e| ≤ 2 ^ e / 2 := by
  obtain ⟨hlow, hhigh⟩ := h
  have hpos := two_zpow_pos e
  have hhigh' : ((ofFinite m e).high : ℚ) / (ofFinite m e).unit = (4 * m + 2 : ℕ) * (2 ^ e / 4) :=
    mul_scale_div_unit (4 * m + 2) e
  have hgap : 4 * m - 2 ≤ 4 * m - (if m = 2 ^ 52 ∧ e ≠ -1074 then 1 else 2) := by
    split_ifs <;> omega
  have hlow' : ((4 * m - 2 : ℕ) : ℚ) * (2 ^ e / 4) ≤ (ofFinite m e).low / (ofFinite m e).unit := by
    refine le_trans ?_ (mul_scale_div_unit _ e).ge
    exact mul_le_mul_of_nonneg_right (by exact_mod_cast hgap) (by positivity)
  have hsub : (4 * m - 2 : ℚ) ≤ ((4 * m - 2 : ℕ) : ℚ) := by
    have hnat : 4 * m ≤ (4 * m - 2) + 2 := by omega
    have hcast : (4 * m : ℚ) ≤ ((4 * m - 2 : ℕ) : ℚ) + 2 := by exact_mod_cast hnat
    linarith
  have hsub' := mul_le_mul_of_nonneg_right hsub (by positivity : (0 : ℚ) ≤ 2 ^ e / 4)
  rw [hhigh'] at hhigh
  push_cast at hhigh
  rw [abs_le]
  constructor <;> linarith

/-- What is in the interval of a positive double is positive. -/
theorem pos_of_holds {q : ℚ} (hm : 0 < m) (h : (ofFinite m e).Holds q) : 0 < q := by
  have hnear := (abs_le.mp (abs_sub_le_of_holds h)).1
  have hpos := two_zpow_pos e
  have hone : (1 : ℚ) ≤ m := by exact_mod_cast hm
  have hvalue := mul_le_mul_of_nonneg_right hone hpos.le
  linarith

/-- A spacing that is small against a number leaves one of its neighbours on the grid within reach. -/
theorem reaches_neighbour (gap : ℕ) {number step spacing below rest low : ℕ}
    (hspacing : 10 ^ 16 * spacing ≤ 4 * number) (hreach : 2 * number < 10 ^ 16 * gap)
    (hgap : gap ≤ 2 * step) (hsplit : below + rest = 4 * number)
    (hlow : low + gap = 4 * number) : low < below ∨ below + spacing < 4 * number + 2 * step := by
  by_cases hnear : 2 * rest ≤ spacing
  · left
    omega
  · right
    omega

/-- **Seventeen digits suffice.** -/
theorem isSome_onGrid?_ofFinite (tie : Tie) (hm : 0 < m) (hm53 : m < 2 ^ 53) (e : ℤ) :
    ((ofFinite m e).onGrid? tie
      (pointPosition (ofFinite m e).value (ofFinite m e).unit - 17)).isSome := by
  have hproper := isProper_ofFinite m e
  have hvalue : 0 < (ofFinite m e).value :=
    Nat.mul_pos (by omega) (Nat.two_pow_pos _)
  obtain ⟨hposition, -⟩ := pointPosition_spec hvalue hproper.unit_pos
  generalize pointPosition (ofFinite m e).value (ofFinite m e).unit = position at hposition ⊢
  -- the value is sixteen digits above the spacing
  have hspacing : 10 ^ 16 * ((ofFinite m e).unit * 10 ^ (position - 17).toNat) ≤
      (ofFinite m e).value * 10 ^ (-(position - 17)).toNat := by
    refine (le_div_unit_iff hproper.unit_pos _ _ _).mp (le_trans (le_of_eq ?_) hposition)
    rw [show position - 1 = (16 : ℕ) + (position - 17) by omega, ten_zpow_add, zpow_natCast]
    norm_num
  refine isSome_onGrid? tie ?_
  obtain ⟨scale, hscale⟩ : ∃ scale, scale = 2 ^ (e - 2).toNat * 10 ^ (-(position - 17)).toNat :=
    ⟨_, rfl⟩
  obtain ⟨gap, hgap⟩ : ∃ gap, gap = if m = 2 ^ 52 ∧ e ≠ -1074 then 1 else 2 := ⟨_, rfl⟩
  have hlow : (ofFinite m e).low * 10 ^ (-(position - 17)).toNat = (4 * m - gap) * scale := by
    rw [hscale, hgap, ← Nat.mul_assoc]
    rfl
  have hmiddle : (ofFinite m e).value * 10 ^ (-(position - 17)).toNat = 4 * (m * scale) := by
    rw [hscale, ← Nat.mul_assoc, ← Nat.mul_assoc]
    rfl
  have hhigh : (ofFinite m e).high * 10 ^ (-(position - 17)).toNat =
      4 * (m * scale) + 2 * scale := by
    rw [← Nat.mul_assoc, ← Nat.add_mul, hscale, ← Nat.mul_assoc]
    rfl
  have hscalepos : 0 < scale := by
    rw [hscale]
    positivity
  have hgap2 : gap ≤ 2 ∧ gap ≤ 4 * m ∧ 2 * m < 10 ^ 16 * gap := by
    rw [hgap]
    split_ifs <;> omega
  rw [hmiddle] at hspacing
  rw [hlow, hmiddle, hhigh, Nat.add_mul, Nat.one_mul]
  refine reaches_neighbour (gap * scale) hspacing ?_ (Nat.mul_le_mul_right _ hgap2.1)
    (Nat.div_add_mod' _ _) ?_
  · rw [← Nat.mul_assoc, ← Nat.mul_assoc]
    exact Nat.mul_lt_mul_of_pos_right hgap2.2.2 hscalepos
  · rw [← Nat.add_mul, Nat.sub_add_cancel hgap2.2.1, Nat.mul_assoc]

end RoundingInterval

/-! ### The shortest decimal -/

/-- Dropping zeros does not change the number. -/
theorem strip_spec (d : Digits) (fuel : ℕ) :
    (d.strip fuel).value = d.value ∧ (d.strip fuel).coefficient ≤ d.coefficient ∧
      d.exponent ≤ (d.strip fuel).exponent := by
  induction fuel generalizing d with
  | zero => exact ⟨rfl, le_rfl, le_rfl⟩
  | succ fuel ih =>
      rw [Digits.strip]
      split_ifs with hzero
      · obtain ⟨hvalue, hcoefficient, hexponent⟩ := ih ⟨d.coefficient / 10, d.exponent + 1⟩
        refine ⟨hvalue.trans ?_, hcoefficient.trans (Nat.div_le_self _ _), by
          dsimp only at hexponent
          omega⟩
        have hexact : 10 * (d.coefficient / 10) = d.coefficient :=
          Nat.mul_div_cancel' (Nat.dvd_of_mod_eq_zero hzero.1)
        have hexact' : (10 : ℚ) * (d.coefficient / 10 : ℕ) = d.coefficient := by
          exact_mod_cast hexact
        rw [Digits.value, Digits.value, ← hexact', ten_zpow_add, zpow_one]
        dsimp only
        ring
      · exact ⟨rfl, le_rfl, le_rfl⟩

/-- A decimal that stands for a positive double: at most seventeen digits, in its rounding interval. -/
structure Digits.IsNear (d : Digits) (m : ℕ) (e : ℤ) : Prop where
  pos : 0 < d.coefficient
  le : d.coefficient ≤ 10 ^ 17
  holds : (RoundingInterval.ofFinite m e).Holds d.value
  /-- There are no more places than seventeen digits take. -/
  lt : (m * 2 ^ e : ℚ) < 10 ^ (d.exponent + 17)

/-- **The shortest decimal** of a positive double. -/
theorem isNear_shortest (tie : Tie) {m : ℕ} (hm : 0 < m) (hm53 : m < 2 ^ 53) (e : ℤ) :
    (shortest tie (.ofFinite m e)).IsNear m e := by
  have hproper := RoundingInterval.isProper_ofFinite m e
  have hvalue : 0 < (RoundingInterval.ofFinite m e).value :=
    Nat.mul_pos (by omega) (Nat.two_pow_pos _)
  obtain ⟨-, hbelow⟩ := pointPosition_spec hvalue hproper.unit_pos
  have hlast := RoundingInterval.isSome_onGrid?_ofFinite tie hm hm53 e
  rw [RoundingInterval.value_ofFinite] at hbelow
  rw [shortest]
  generalize pointPosition (RoundingInterval.ofFinite m e).value
    (RoundingInterval.ofFinite m e).unit = position at *
  -- the search ends on the grid of seventeen digits if not before
  have hfound : ((List.range 17).findSome? fun (k : ℕ) =>
      (RoundingInterval.ofFinite m e).onGrid? tie (position - (k + 1))).isSome :=
    List.findSome?_isSome_iff.mpr ⟨16, by decide, by exact_mod_cast hlast⟩
  obtain ⟨d, hd⟩ := Option.isSome_iff_exists.mp hfound
  obtain ⟨k, hk, hgrid⟩ := List.exists_of_findSome?_eq_some hd
  obtain ⟨hexponent, hholds, hle⟩ := RoundingInterval.holds_of_onGrid? hproper hgrid
  obtain ⟨hsame, hsmaller, hlarger⟩ := strip_spec d 20
  have hk' : k < 17 := List.mem_range.mp hk
  rw [hd, Option.getD_some]
  rw [RoundingInterval.value_ofFinite] at hle
  refine ⟨?_, hsmaller.trans ?_, ?_, ?_⟩
  · rw [← Digits.value_pos, hsame]
    exact RoundingInterval.pos_of_holds hm hholds
  · have hten := ten_zpow_pos (position - (k + 1))
    have hcoefficient : (d.coefficient : ℚ) * 10 ^ (position - (k + 1)) <
        (10 ^ (k + 1) + 1) * 10 ^ (position - (k + 1)) := by
      calc (d.coefficient : ℚ) * 10 ^ (position - (k + 1)) = d.value := by
            rw [Digits.value, hexponent]
        _ ≤ m * 2 ^ e + 10 ^ (position - (k + 1)) := hle
        _ < 10 ^ position + 10 ^ (position - (k + 1)) := by linarith
        _ = (10 ^ (k + 1) + 1) * 10 ^ (position - (k + 1)) := by
            rw [add_mul, one_mul, ← zpow_natCast, ← ten_zpow_add]
            congr 2
            push_cast
            ring
    have hlt : d.coefficient < 10 ^ (k + 1) + 1 := by
      exact_mod_cast lt_of_mul_lt_mul_right hcoefficient hten.le
    exact (Nat.lt_succ_iff.mp hlt).trans (Nat.pow_le_pow_right (by norm_num) (by omega))
  · rwa [hsame]
  · exact hbelow.trans_le (zpow_le_zpow_right₀ (by norm_num) (by omega))

end BlockAffinity.Decimal
