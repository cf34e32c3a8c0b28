import BlockAffinity.Proofs.Decimal.Nearest
import BlockAffinity.Proofs.Decimal.Written
import BlockAffinity.Proofs.Json.Scaling

/-!
# BlockAffinity.Proofs.Json.Doubles

**Doubles are read back nearly.** Every finite double is written as a lexeme, and reading the lexeme
always gives a double again (`exists_kept`). It is not always the same one, since the significand and
the power are rounded before they are multiplied or divided; but it is within sixteen roundings, or two
steps in the subnormal range, and where the decimal that was written is short it is the same
(`Kept`).
-/

namespace BlockAffinity.Decimal

open Double Json

variable {d : Digits} {m s : ℕ} {e k : ℤ} {y : Float}

/-! ### The decimal that is written -/

/-- The number that a positive double stands for is in the range of doubles. -/
structure InDoubles (m : ℕ) (e : ℤ) : Prop where
  pos : 0 < m
  lt : m < 2 ^ 53
  low_le : -1074 ≤ e
  le_high : e ≤ 971
  full : 2 ^ 52 ≤ m ∨ e = -1074

namespace Digits.IsNear

theorem le_exponent (h : d.IsNear m e) (hm : InDoubles m e) : -340 ≤ d.exponent := by
  have hsmall : (10 : ℚ) ^ (-324 : ℤ) < 2 ^ (-1074 : ℤ) := by
    have hnat : 2 ^ 1074 < 10 ^ 324 := by decide +kernel
    have hcast := Nat.cast_lt (α := ℚ).mpr hnat
    simp only [Nat.cast_pow, Nat.cast_ofNat] at hcast
    rw [zpow_neg, zpow_neg, zpow_ofNat, zpow_ofNat]
    exact inv_strictAnti₀ (pow_pos (by norm_num) _) hcast
  have hone : (1 : ℚ) ≤ m := by exact_mod_cast hm.pos
  have hpower : (10 : ℚ) ^ (-324 : ℤ) < 10 ^ (d.exponent + 17) :=
    calc (10 : ℚ) ^ (-324 : ℤ) < 2 ^ (-1074 : ℤ) := hsmall
      _ ≤ 2 ^ e := zpow_le_zpow_right₀ (by norm_num) hm.low_le
      _ ≤ m * 2 ^ e := le_mul_of_one_le_left (two_zpow_pos e).le hone
      _ < 10 ^ (d.exponent + 17) := h.lt
  have hexponent := (zpow_lt_zpow_iff_right₀ (by norm_num)).mp hpower
  omega

/-- The decimal is one rounding away. -/
theorem abs_sub_le (h : d.IsNear m e) (hm : InDoubles m e) :
    |d.value - m * 2 ^ e| ≤ m * 2 ^ e * unitRoundoff + smallest / 2 := by
  refine (RoundingInterval.abs_sub_le_of_holds h.holds).trans ?_
  have hpos := two_zpow_pos e
  have hsmallest := smallest_pos
  have hunit := unitRoundoff_pos
  rcases hm.full with hfull | rfl
  · have hfull' : (2 ^ 52 : ℚ) ≤ m := by exact_mod_cast hfull
    have hhalf : (2 ^ 52 : ℚ) * unitRoundoff = 1 / 2 := by norm_num [unitRoundoff]
    have hfactor := mul_le_mul_of_nonneg_right hfull' (mul_nonneg hpos.le hunit.le)
    calc (2 : ℚ) ^ e / 2 = 2 ^ 52 * (2 ^ e * unitRoundoff) := by
          rw [mul_left_comm, hhalf]
          ring
      _ ≤ m * (2 ^ e * unitRoundoff) := hfactor
      _ ≤ m * 2 ^ e * unitRoundoff + smallest / 2 := by linarith
  · have hnonneg : 0 ≤ m * 2 ^ (-1074 : ℤ) * unitRoundoff :=
      mul_nonneg (mul_nonneg (Nat.cast_nonneg m) hpos.le) hunit.le
    rw [← smallest] at hnonneg ⊢
    linarith

theorem value_le (h : d.IsNear m e) : d.value ≤ m * 2 ^ e + 2 ^ e / 2 := by
  linarith [(abs_le.mp (RoundingInterval.abs_sub_le_of_holds h.holds)).2]

theorem exponent_le (h : d.IsNear m e) (hm : InDoubles m e) : d.exponent ≤ 308 := by
  have hlarge : (2 : ℚ) ^ (53 + 971 : ℤ) < 10 ^ (309 : ℤ) := by
    have hnat : 2 ^ 1024 < 10 ^ 309 := by decide +kernel
    have hcast := Nat.cast_lt (α := ℚ).mpr hnat
    simp only [Nat.cast_pow, Nat.cast_ofNat] at hcast
    rwa [zpow_ofNat, show (53 + 971 : ℤ) = 1024 by norm_num, zpow_ofNat]
  have hpos := two_zpow_pos e
  have hone : (1 : ℚ) ≤ d.coefficient := by exact_mod_cast h.pos
  have hm53 : (m : ℚ) + 1 ≤ 2 ^ 53 := by exact_mod_cast hm.lt
  have hpower : (10 : ℚ) ^ d.exponent < 10 ^ (309 : ℤ) :=
    calc (10 : ℚ) ^ d.exponent ≤ d.value := le_mul_of_one_le_left (ten_zpow_pos _).le hone
      _ ≤ m * 2 ^ e + 2 ^ e / 2 := h.value_le
      _ ≤ (m + 1) * 2 ^ e := by linarith
      _ ≤ 2 ^ 53 * 2 ^ (971 : ℤ) := by
          refine mul_le_mul hm53 ?_ hpos.le (by positivity)
          exact zpow_le_zpow_right₀ (by norm_num) hm.le_high
      _ = 2 ^ (53 + 971 : ℤ) := by rw [two_zpow_add, zpow_ofNat, zpow_ofNat]
      _ < 10 ^ (309 : ℤ) := hlarge
  have hexponent := (zpow_lt_zpow_iff_right₀ (by norm_num)).mp hpower
  omega

/-- The exponent of the first digit is small. -/
theorem natAbs_lt (h : d.IsNear m e) (hm : InDoubles m e) :
    (d.exponent + (digitCount d.coefficient : ℤ) - 1).natAbs < Json.exponentLimit := by
  have hlow := h.le_exponent hm
  have hhigh := h.exponent_le hm
  have hcount : digitCount d.coefficient ≤ 18 :=
    (Nat.length_toDigits_le_iff (by norm_num) (by norm_num)).mpr
      (h.le.trans_lt (by norm_num))
  have hlimit : Json.exponentLimit = 2147483648 := by decide
  omega

end Digits.IsNear

namespace Digits.WrittenAs

theorem value_eq (h : d.WrittenAs s k) : (s : ℚ) * 10 ^ k = d.value := by
  cases h with
  | same => rfl
  | padded hexponent hshort =>
      rw [Digits.value, hexponent, zpow_natCast, pow_succ]
      push_cast
      rw [zpow_neg_one]
      field_simp

theorem pos (h : d.WrittenAs s k) (hd : d.IsNear m e) : 0 < s := by
  cases h with
  | same => exact hd.pos
  | padded => exact Nat.mul_pos hd.pos (by positivity)

theorem le (h : d.WrittenAs s k) (hd : d.IsNear m e) : s ≤ 10 ^ 17 := by
  cases h with
  | same => exact hd.le
  | padded _ hshort => exact hshort.le

theorem exponent_cases (h : d.WrittenAs s k) : k = d.exponent ∨ k = -1 := by
  cases h with
  | same => exact .inl rfl
  | padded => exact .inr rfl

/-- **What is written for a short decimal** is short. -/
theorem isShort (h : d.WrittenAs s k) (hd : d.IsNear m e) (hshort : d.IsShort) :
    s ≤ 2 ^ 53 ∧ -22 ≤ k ∧ k ≤ 22 := by
  have hcoefficient := hshort.coefficient
  have hexponent := hshort.exponent
  cases h with
  | same =>
      refine ⟨(Nat.le_mul_of_pos_right _ (by positivity)).trans hcoefficient, hexponent, ?_⟩
      have hpower : 10 ^ (d.exponent + 1).toNat ≤ 2 ^ 53 :=
        (Nat.le_mul_of_pos_left _ hd.pos).trans hcoefficient
      by_contra hlarge
      have hmore := Nat.pow_le_pow_right (n := 10) (by norm_num)
        (by omega : 22 ≤ (d.exponent + 1).toNat)
      exact absurd (hmore.trans hpower) (by norm_num)
  | padded hzeros _ =>
      rw [hzeros] at hcoefficient
      exact ⟨hcoefficient, by norm_num, by norm_num⟩

end Digits.WrittenAs

/-! ### What is read for it -/

/-- **A decimal that fits** is read as a double near the one that it was written for. -/
theorem exists_near_scale? (hd : d.IsNear m e) (hm : InDoubles m e) (hw : d.WrittenAs s k)
    (hfits : d.value * (1 + 4 * unitRoundoff) ≤ largest) :
    ∃ y, scale? s k = some y ∧ Near (m * 2 ^ e) (16 * unitRoundoff) (2 * smallest) y := by
  have hlow := hd.le_exponent hm
  have hhigh := hd.exponent_le hm
  obtain ⟨y, hy, hnear⟩ := near_scale? (k := k) (hw.pos hd) (hw.le hd)
    (by rcases hw.exponent_cases with rfl | rfl <;> omega)
    (by rcases hw.exponent_cases with rfl | rfl <;> omega) (by rwa [hw.value_eq])
  rw [hw.value_eq] at hnear
  have hdecimal := hd.abs_sub_le hm
  have hunit := unitRoundoff_pos
  have hsmallest := smallest_pos
  have hnonneg : (0 : ℚ) ≤ m * 2 ^ e := mul_nonneg (Nat.cast_nonneg m) (two_zpow_pos e).le
  refine ⟨y, hy, hnear.finite, hnear.nonneg, ?_⟩
  generalize d.value = decimal at *
  generalize (m : ℚ) * 2 ^ e = v at *
  have hnear := hnear.near
  generalize smallest = step at *
  -- the nine roundings are those of the decimal, which is one rounding away from the double
  have hle : decimal * (9 * unitRoundoff) ≤
      (v + (v * unitRoundoff + step / 2)) * (9 * unitRoundoff) :=
    mul_le_mul_of_nonneg_right (by linarith [(abs_le.mp hdecimal).2]) (by linarith)
  have hfirst : unitRoundoff + (1 + unitRoundoff) * (9 * unitRoundoff) ≤ 16 * unitRoundoff := by
    norm_num [unitRoundoff]
  have hsecond : 1 / 2 * (9 * unitRoundoff) ≤ 1 / 4 := by norm_num [unitRoundoff]
  calc |toRat y - v| ≤ |toRat y - decimal| + |decimal - v| := abs_sub_le _ _ _
    _ ≤ (v + (v * unitRoundoff + step / 2)) * (9 * unitRoundoff) + 3 / 4 * step +
        (v * unitRoundoff + step / 2) :=
        add_le_add (hnear.trans (by linarith)) hdecimal
    _ = v * (unitRoundoff + (1 + unitRoundoff) * (9 * unitRoundoff)) +
        step * (1 / 2 * (9 * unitRoundoff)) + 5 / 4 * step := by ring
    _ ≤ v * (16 * unitRoundoff) + step * (1 / 4) + 5 / 4 * step := by gcongr
    _ ≤ v * (16 * unitRoundoff) + 2 * step := by linarith

/-- The largest doubles are looked at one by one: scaling them does not overflow. -/
theorem magnitude?_of_top : ∀ i < 8, ∃ j < 16,
    ((Number.ofLexeme? (json.digits (shortest .toEven (.ofFinite (2 ^ 53 - 8 + i) 971)))).bind
      Number.magnitude?).map Binary64.ofFloat = some (.finite false (2 ^ 53 - 16 + j) 971) := by
  decide +kernel

/-- Below these there is room for the error. -/
theorem Digits.IsNear.fits (h : d.IsNear m e) (hm : InDoubles m e) (hbelow : m + 8 < 2 ^ 53 ∨ e < 971) :
    d.value * (1 + 4 * unitRoundoff) ≤ largest := by
  have hpos := two_zpow_pos e
  have hvalue : d.value ≤ (2 ^ 53 - 17 / 2) * 2 ^ (971 : ℤ) := by
    rcases hbelow with hlt | hlt
    · have hm' : (m : ℚ) + 9 ≤ 2 ^ 53 := by exact_mod_cast hlt
      calc d.value ≤ m * 2 ^ e + 2 ^ e / 2 := h.value_le
        _ = (m + 1 / 2) * 2 ^ e := by ring
        _ ≤ (2 ^ 53 - 17 / 2) * 2 ^ (971 : ℤ) := by
            refine mul_le_mul (by linarith) ?_ hpos.le (by norm_num)
            exact zpow_le_zpow_right₀ (by norm_num) hm.le_high
    · have hm' : (m : ℚ) + 1 ≤ 2 ^ 53 := by exact_mod_cast hm.lt
      calc d.value ≤ m * 2 ^ e + 2 ^ e / 2 := h.value_le
        _ ≤ 2 ^ 53 * 2 ^ e := by linarith [mul_le_mul_of_nonneg_right hm' hpos.le]
        _ = 2 ^ 52 * 2 ^ (e + 1) := by rw [two_zpow_add, zpow_one]; ring
        _ ≤ (2 ^ 53 - 17 / 2) * 2 ^ (971 : ℤ) := by
            refine mul_le_mul (by norm_num) ?_ (two_zpow_pos _).le (by norm_num)
            exact zpow_le_zpow_right₀ (by norm_num) (by omega)
  have hunit := unitRoundoff_pos
  calc d.value * (1 + 4 * unitRoundoff)
      ≤ (2 ^ 53 - 17 / 2) * 2 ^ (971 : ℤ) * (1 + 4 * unitRoundoff) :=
        mul_le_mul_of_nonneg_right hvalue (by linarith)
    _ = (2 ^ 53 - 17 / 2) * (1 + 4 * unitRoundoff) * 2 ^ (971 : ℤ) := by
        generalize (2 : ℚ) ^ (971 : ℤ) = power
        ring
    _ ≤ largest := mul_le_mul_of_nonneg_right (by norm_num [unitRoundoff]) (two_zpow_pos 971).le

/-- What is read for the decimal of a positive double. -/
structure IsRead (d : Digits) (m : ℕ) (e : ℤ) (y : Float) : Prop where
  near : Near (m * 2 ^ e) (16 * unitRoundoff) (2 * smallest) y
  toRat_eq : d.IsShort → toRat y = m * 2 ^ e

/-- **A short decimal** is read as the double that it was written for. -/
theorem Digits.IsShort.exists_isRead (h : d.IsShort) (hd : d.IsNear m e) (hm : InDoubles m e)
    (hw : d.WrittenAs s k) : ∃ y, scale? s k = some y ∧ IsRead d m e y := by
  obtain ⟨hcoefficient, hlow, hhigh⟩ := hw.isShort hd h
  obtain ⟨y, hy, hround⟩ := isRounding_scale? hcoefficient hlow hhigh
  rw [hw.value_eq] at hround
  have hvalue : toRat y = m * 2 ^ e :=
    h.toRat_eq (representable_mul_two_zpow hm.lt.le hm.low_le)
      (fun _ => RoundingInterval.nearest_of_holds hm.full hd.holds) hround
  have hnonneg : (0 : ℚ) ≤ m * 2 ^ e := mul_nonneg (Nat.cast_nonneg m) (two_zpow_pos e).le
  have hunit := unitRoundoff_pos
  have hsmallest := smallest_pos
  refine ⟨y, hy, ⟨hround.finite, hvalue ▸ hnonneg, ?_⟩, fun _ => hvalue⟩
  rw [hvalue, sub_self, abs_zero]
  exact add_nonneg (mul_nonneg hnonneg (by linarith)) (by linarith)

theorem IsWritten.ofLexeme?_eq {text : String} {n : Number} (h : IsWritten d text.toList n) :
    Number.ofLexeme? text = some n := by
  rw [Number.ofLexeme?, h.text_eq, Number.scan?_chars h.proper]

/-- One of the largest doubles is read as one of the largest doubles. -/
theorem exists_near_of_top (hm : InDoubles m e) (htop : 2 ^ 53 ≤ m + 8) (he : 971 ≤ e) {n : Number}
    (hn : IsWritten d (json.digits (shortest .toEven (.ofFinite m e))).toList n) :
    ∃ y, n.magnitude? = some y ∧ Near (m * 2 ^ e) (16 * unitRoundoff) (2 * smallest) y := by
  obtain rfl : e = 971 := le_antisymm hm.le_high he
  have hlt := hm.lt
  obtain ⟨i, hi, rfl⟩ : ∃ i < 8, m = 2 ^ 53 - 8 + i := ⟨m - (2 ^ 53 - 8), by omega, by omega⟩
  obtain ⟨j, hj, hread⟩ := magnitude?_of_top i hi
  rw [hn.ofLexeme?_eq, Option.bind_some, Option.map_eq_some_iff] at hread
  obtain ⟨y, hy, hbits⟩ := hread
  have hdecodes := decodes_of_ofFloat hbits
  have hvalue := hdecodes.toRat_eq
  have hpos := two_zpow_pos 971
  have hsmallest := smallest_pos
  rw [if_neg Bool.false_ne_true, one_mul] at hvalue
  refine ⟨y, hy, hdecodes.finite, hvalue ▸ mul_nonneg (Nat.cast_nonneg _) hpos.le, ?_⟩
  have hi' : (i : ℚ) ≤ 7 := by exact_mod_cast Nat.lt_succ_iff.mp hi
  have hj' : (j : ℚ) ≤ 15 := by exact_mod_cast Nat.lt_succ_iff.mp hj
  have hi0 : (0 : ℚ) ≤ i := Nat.cast_nonneg i
  have hj0 : (0 : ℚ) ≤ j := Nat.cast_nonneg j
  rw [hvalue, ← sub_mul, abs_mul, abs_of_pos hpos]
  have hdifference : |((2 ^ 53 - 16 + j : ℕ) : ℚ) - (2 ^ 53 - 8 + i : ℕ)| ≤
      (2 ^ 53 - 8 + i : ℕ) * (16 * unitRoundoff) := by
    norm_num [unitRoundoff]
    rw [abs_le]
    constructor <;> linarith
  generalize (2 : ℚ) ^ (971 : ℤ) = power at *
  linarith [mul_le_mul_of_nonneg_right hdifference hpos.le]

/-- **What is written for a positive double** is read as one near it. -/
theorem exists_isRead (hm : InDoubles m e) : ∃ n y,
    IsWritten (shortest .toEven (.ofFinite m e))
        (json.digits (shortest .toEven (.ofFinite m e))).toList n ∧
      n.magnitude? = some y ∧ IsRead (shortest .toEven (.ofFinite m e)) m e y := by
  have hd := isNear_shortest .toEven hm.pos hm.lt e
  obtain ⟨n, hn⟩ := exists_isWritten_digits hd.pos (hd.natAbs_lt hm)
  have hdigits : n.significand ≤ maxSignificand := (hn.written.le hd).trans (by decide +kernel)
  have hmagnitude := Number.magnitude?_eq hdigits hn.limit
  by_cases hshort : (shortest .toEven (.ofFinite m e)).IsShort
  · obtain ⟨y, hy, hread⟩ := hshort.exists_isRead hd hm hn.written
    exact ⟨n, y, hn, hmagnitude.trans hy, hread⟩
  by_cases htop : m + 8 < 2 ^ 53 ∨ e < 971
  · obtain ⟨y, hy, hnear⟩ := exists_near_scale? hd hm hn.written (hd.fits hm htop)
    exact ⟨n, y, hn, hmagnitude.trans hy, hnear, fun h => absurd h hshort⟩
  · obtain ⟨y, hy, hnear⟩ := exists_near_of_top hm (by omega) (by omega) hn
    exact ⟨n, y, hn, hy, hnear, fun h => absurd h hshort⟩

/-! ### Signs and zeros -/

/-- A number that is written in few digits: a zero, or one whose shortest decimal is short. -/
def Binary64.IsShort : Binary64 → Prop
  | .finite _ m e => m = 0 ∨ (shortest .toEven (.ofFinite m e)).IsShort
  | _ => True

instance : (b : Binary64) → Decidable b.IsShort
  | .finite _ m e =>
      inferInstanceAs (Decidable (m = 0 ∨ (shortest .toEven (.ofFinite m e)).IsShort))
  | .infinite _ => isTrue trivial
  | .nan => isTrue trivial

/-- A double that is written in few digits. -/
def IsShort (x : Float) : Prop := (Binary64.ofFloat x).IsShort

instance (x : Float) : Decidable (IsShort x) := inferInstanceAs (Decidable (Binary64.IsShort _))

/-- What is kept of a double that is written and read: it is within sixteen roundings, or two steps in
the subnormal range, and it is the same if it is short. -/
structure Kept (x y : Float) : Prop where
  finite : Scalar.isFinite y = true
  near : |toRat y - toRat x| ≤ |toRat x| * 2 ^ (-49 : ℤ) + 2 ^ (-1073 : ℤ)
  eq_of_isShort : IsShort x → y = x

/-- The number that a double is written as. -/
structure IsNumberOf (x : Float) (n : Number) : Prop where
  toList_eq : (json.write x).toList = n.chars
  proper : n.IsProper

variable {x : Float} {negative : Bool}

/-- It is a lexeme that is read as the number. -/
theorem IsNumberOf.read {n : Number} (h : IsNumberOf x n) :
    IsLexeme (json.write x) ∧ Number.ofLexeme? (json.write x) = some n := by
  have htext : json.write x = String.ofList n.chars := by rw [← h.toList_eq, String.ofList_toList]
  rw [htext]
  exact ⟨Number.isLexeme_chars h.proper, Number.ofLexeme?_chars h.proper⟩

theorem chars_of_negative {n : Number} (h : n.negative = false) (negative : Bool) :
    Number.chars { n with negative := negative } = (if negative then ['-'] else []) ++ n.chars := by
  simp [Number.chars, Number.body, h]

/-- A double with a sign put in front of it. -/
def signed (negative : Bool) (y : Float) : Float := if negative then -y else y

theorem decodes_signed (hy : Decodes y false m e) (negative : Bool) :
    Decodes (signed negative y) negative m e := by
  cases negative with
  | true => exact hy.neg
  | false => exact hy

theorem toRat_signed (hy : Scalar.isFinite y = true) (negative : Bool) :
    Scalar.isFinite (signed negative y) = true ∧
      toRat (signed negative y) = (if negative then -1 else 1) * toRat y := by
  cases negative with
  | true =>
      obtain ⟨sign, k, f, hdecodes⟩ := exists_decodes hy
      refine ⟨hdecodes.neg.finite, ?_⟩
      show toRat (-y) = _
      rw [hdecodes.neg.toRat_eq, hdecodes.toRat_eq]
      cases sign <;> simp
  | false => exact ⟨hy, (one_mul _).symm⟩

/-- Without its sign a double has the same number. -/
theorem exists_decodes_false (hx : Decodes x negative m e) :
    ∃ w, Decodes w false m e ∧ signed negative w = x := by
  cases negative with
  | true => exact ⟨-x, hx.neg, hx.neg.neg.unique hx⟩
  | false => exact ⟨x, hx, rfl⟩

theorem kept_refl (hx : Scalar.isFinite x = true) : Kept x x := by
  refine ⟨hx, ?_, fun _ => rfl⟩
  rw [sub_self, abs_zero]
  exact add_nonneg (mul_nonneg (abs_nonneg _) (two_zpow_pos _).le) (two_zpow_pos _).le

/-- The sign does not matter to what is kept. -/
theorem kept_signed (hx : Decodes x negative m e) (hpos : 0 < m)
    (hread : IsRead (shortest .toEven (.ofFinite m e)) m e y) : Kept x (signed negative y) := by
  obtain ⟨hfinite, hvalue⟩ := toRat_signed hread.near.finite negative
  have hpositive : (0 : ℚ) < m * 2 ^ e := mul_pos (Nat.cast_pos.mpr hpos) (two_zpow_pos e)
  have hsign : |(if negative then -1 else 1 : ℚ)| = 1 := by cases negative <;> simp
  refine ⟨hfinite, ?_, fun hshort => ?_⟩
  · have hrelative : 16 * unitRoundoff = 2 ^ (-49 : ℤ) := by norm_num [unitRoundoff]
    have habsolute : 2 * smallest = 2 ^ (-1073 : ℤ) := by
      rw [smallest, show (-1073 : ℤ) = 1 + -1074 by norm_num, two_zpow_add, zpow_one]
    rw [hvalue, hx.toRat_eq, ← mul_sub, abs_mul, abs_mul, hsign, one_mul, one_mul,
      abs_of_pos hpositive, ← hrelative, ← habsolute]
    exact hread.near.near
  · obtain ⟨w, hw, hsame⟩ := exists_decodes_false hx
    have hnumber : toRat w = m * 2 ^ e := by rw [hw.toRat_eq, if_neg Bool.false_ne_true, one_mul]
    rw [IsShort, hx.ofFloat] at hshort
    have hexact := hread.toRat_eq (hshort.resolve_left hpos.ne')
    rw [← hsame, ext_toRat hw.finite hread.near.finite (hnumber.trans hexact.symm)
      (hnumber.trans_ne hpositive.ne')]

/-- Zeros are read back with their sign. -/
theorem exists_kept_of_zero (hx : Decodes x negative 0 e) :
    ∃ n y, IsNumberOf x n ∧ n.toFloat? = some y ∧ Kept x y := by
  have hread : (Number.magnitude? ⟨negative, ['0'], ['0'], none⟩).map Binary64.ofFloat =
      some (.finite false 0 (-1074)) := by
    cases negative <;> decide +kernel
  obtain ⟨y, hy, hbits⟩ := Option.map_eq_some_iff.mp hread
  obtain rfl : e = -1074 := hx.full.resolve_left (by norm_num)
  have hsame : signed negative y = x :=
    (decodes_signed (decodes_of_ofFloat hbits) negative).unique hx
  refine ⟨⟨negative, ['0'], ['0'], none⟩, x, ⟨?_, ?_⟩, ?_, kept_refl hx.finite⟩
  · rw [Style.write, hx.ofFloat]
    cases negative <;> rfl
  · exact ⟨by simp, by simp, by simp, by simp, by simp⟩
  · rw [Number.toFloat?, hy, ← hsame]
    rfl

/-- A double that is not zero is read back with its sign. -/
theorem exists_kept_of_pos (hx : Decodes x negative m e) (hpos : 0 < m) :
    ∃ n y, IsNumberOf x n ∧ n.toFloat? = some y ∧ Kept x y := by
  obtain ⟨n, y, hwritten, hy, hread⟩ :=
    exists_isRead ⟨hpos, hx.lt, hx.low_le, hx.le_high, hx.full⟩
  have htext : json.write x =
      (if negative then "-" else "") ++ json.digits (shortest .toEven (.ofFinite m e)) := by
    rw [Style.write, hx.ofFloat, Style.binary, if_neg hpos.ne']
    rfl
  refine ⟨{ n with negative := negative }, signed negative y, ⟨?_, ?_⟩, ?_, ?_⟩
  · rw [htext, chars_of_negative hwritten.negative, ← hwritten.text_eq, String.toList_append]
    cases negative <;> rfl
  · exact ⟨hwritten.proper.whole_ne_nil, hwritten.proper.whole_digits, hwritten.proper.leading,
      hwritten.proper.fraction_digits, hwritten.proper.exponent_digits⟩
  · have hmagnitude : Number.magnitude? { n with negative := negative } = n.magnitude? := rfl
    rw [Number.toFloat?, hmagnitude, hy]
    rfl
  · exact kept_signed hx hpos hread

/-- **A finite double is read back**, from a number of the grammar. -/
theorem exists_kept (hx : Scalar.isFinite x = true) :
    ∃ n y, IsNumberOf x n ∧ n.toFloat? = some y ∧ Kept x y := by
  obtain ⟨negative, m, e, hdecodes⟩ := exists_decodes hx
  rcases Nat.eq_zero_or_pos m with rfl | hpos
  · exact exists_kept_of_zero hdecodes
  · exact exists_kept_of_pos hdecodes hpos

end BlockAffinity.Decimal
