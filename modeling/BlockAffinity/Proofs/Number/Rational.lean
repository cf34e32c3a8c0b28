import BlockAffinity.Proofs.Number.Rounding

/-!
# BlockAffinity.Proofs.Number.Rational

**Doubles read as rational numbers.** `toRat` is the number that a finite double stands for. Doubles
compare as these numbers do (`lt_iff_toRat`), and the operations of the class `Scalar` yield the
double nearest to the exact result (`IsRounding`), as long as that result is not beyond the largest double.

What a rounding is good for is stated against representable bounds: a rounding of a number that is
at most a representable bound is at most that bound, too.
-/

namespace BlockAffinity.Double

open Float.Model Float.Model.UnpackedFloat

/-! ### Packing -/

/-- The leading bit of a mantissa is not in the encoding of a subnormal double. -/
theorem unpack_pack_of_subnormal (sign : Sign) {m : ℕ} (hm : 0 < m) (hm52 : m < 2 ^ 52) :
    (Float.Model.pack (.finite sign m (-1074) hm)).unpack = .finite sign m (-1074) hm := by
  have hlog : m.log2 < 52 := (Nat.log2_lt hm.ne').mpr hm52
  have hmantissa : (BitVec.ofNat 52 m).toNat = m := by
    rw [BitVec.toNat_ofNat, Nat.mod_eq_of_lt hm52]
  have hne : BitVec.ofNat 52 m ≠ 0#_ := by
    intro heq
    have hvalue := congrArg BitVec.toNat heq
    rw [hmantissa, BitVec.toNat_zero] at hvalue
    omega
  have hbits : ¬m.log2 + 1 = Format.binary64.mantissaBits := by
    simp only [Format.mantissaBits]
    omega
  rw [unpack_pack]
  unfold UnpackedFloat.pack
  dsimp only
  rw [if_neg (by decide), if_neg hbits]
  unfold UnpackedFloat.unpack
  simp only [unpackMantissa_packComponents, unpackExponent_packComponents,
    unpackSign_packComponents, ofBitVec_toBitVec]
  rw [if_neg (by decide)]
  simp only [if_true, dif_neg hne, UnpackedFloat.finite.injEq]
  exact ⟨trivial, hmantissa, by decide⟩

/-- The exponent is not above the largest one. -/
def Encodable : UnpackedFloat → Prop
  | .finite _ _ exponent _ => exponent ≤ 971
  | _ => True

/-- A double that fits the encoding survives packing. -/
theorem unpack_pack_of_canonical {u : UnpackedFloat} (hfinite : u.isFinite = true)
    (h : Canonical u) (hu : Encodable u) : (Float.Model.pack u).unpack = u := by
  rcases u with _ | _ | sign | ⟨sign, m, e, hm⟩ <;> try contradiction
  · cases sign <;> rfl
  · obtain ⟨hm53, he, hm52⟩ := h
    rcases Nat.lt_or_ge m (2 ^ 52) with hlt | hge
    · obtain rfl : e = -1074 := hm52.resolve_left (by omega)
      exact unpack_pack_of_subnormal sign hm hlt
    · exact unpack_pack_of_full sign hm hge hm53 he hu

theorem canonical_unpack (bits : BitVec Format.binary64.numBits) :
    Canonical (UnpackedFloat.unpack .binary64 bits) := by
  unfold UnpackedFloat.unpack
  dsimp only
  have hmantissa : (unpackMantissa bits : BitVec 52).toNat < 2 ^ 52 := BitVec.isLt _
  have hexponent : (unpackExponent bits : BitVec 11).toNat < 2 ^ 11 := BitVec.isLt _
  have hbias : Format.binary64.exponentBias = 1023 := by decide
  split_ifs with hmax hzero hmin hzero
  · trivial
  · trivial
  · trivial
  · refine ⟨hmantissa.trans (by norm_num), ?_, Or.inr ?_⟩ <;>
    · rw [hmin, hbias, BitVec.toNat_zero]
      omega
  · have hne : (unpackExponent bits : BitVec 11).toNat ≠ 0 :=
      fun heq => hmin (BitVec.eq_of_toNat_eq heq)
    have happend : (1#1 ++ (unpackMantissa bits : BitVec 52)).toNat =
        2 ^ 52 + (unpackMantissa bits : BitVec 52).toNat := by
      rw [BitVec.toNat_append, ← Nat.shiftLeft_add_eq_or_of_lt hmantissa]
      rfl
    refine ⟨?_, ?_, Or.inl ?_⟩
    · rw [happend]
      omega
    · rw [hbias]
      omega
    · rw [happend]
      omega

theorem encodable_unpack (bits : BitVec Format.binary64.numBits) :
    Encodable (UnpackedFloat.unpack .binary64 bits) := by
  unfold UnpackedFloat.unpack
  dsimp only
  have hexponent : (unpackExponent bits : BitVec 11).toNat < 2 ^ 11 := BitVec.isLt _
  have hbias : Format.binary64.exponentBias = 1023 := by decide
  split_ifs with hmax hzero hmin hzero
  · trivial
  · trivial
  · trivial
  · show _ ≤ (971 : ℤ)
    rw [hmin, hbias, BitVec.toNat_zero]
    omega
  · have hne : (unpackExponent bits : BitVec 11).toNat ≠ 2047 :=
      fun heq => hmax (BitVec.eq_of_toNat_eq heq)
    show _ ≤ (971 : ℤ)
    rw [hbias]
    omega

theorem canonical_unpacked (x : Float) : Canonical (unpacked x) := canonical_unpack _

theorem encodable_unpacked (x : Float) : Encodable (unpacked x) := encodable_unpack _

/-! ### The number of a double -/

/-- The number that a double stands for, zero for infinities and NaN. -/
def toRat (x : Float) : ℚ := value (unpacked x)

variable {x y : Float} {v w : ℚ}

theorem isFinite_eq (x : Float) : Scalar.isFinite x = (unpacked x).isFinite := rfl

theorem representable_toRat (x : Float) : Representable (toRat x) :=
  representable_value (canonical_unpacked x)

@[simp] theorem toRat_zero : toRat Scalar.zero = 0 := rfl

@[simp] theorem toRat_sumStart : toRat Scalar.sumStart = 0 := rfl

@[simp] theorem toRat_one : toRat Scalar.one = 1 := by
  have hone : unpacked (Scalar.one : Float) =
      .finite .positive (2 ^ 52) (-52) (by decide) := by
    rfl
  rw [toRat, hone, value]
  norm_num [Sign.apply]

/-- The number of a positive double, read off its encoding. -/
theorem toRat_of_unpacked {m : ℕ} {e : ℤ} {h : 0 < m} (hx : unpacked x = .finite .positive m e h) :
    toRat x = m * 2 ^ e := by
  rw [toRat, hx, value, Sign.apply, Int.cast_natCast]

/-- The greater of two exponents comes with a leading bit, so it decides. -/
theorem mantissa_lt_of_exponent_lt {m k : ℕ} {e f : ℤ} (hm : m < 2 ^ 53) (he : -1074 ≤ e)
    (hk : 2 ^ 52 ≤ k ∨ f = -1074) (h : e < f) : (m : ℚ) * 2 ^ e < k * 2 ^ f := by
  have hk' : (2 ^ 52 : ℚ) ≤ k := by exact_mod_cast hk.resolve_right (by omega)
  have hm' : (m : ℚ) < 2 ^ 53 := by exact_mod_cast hm
  calc (m : ℚ) * 2 ^ e < 2 ^ 53 * 2 ^ e := mul_lt_mul_of_pos_right hm' (two_zpow_pos e)
    _ = 2 ^ 52 * 2 ^ (e + 1) := by rw [two_zpow_add, zpow_one]; ring
    _ ≤ 2 ^ 52 * 2 ^ f := by
        refine mul_le_mul_of_nonneg_left ?_ (by norm_num)
        exact zpow_le_zpow_right₀ (by norm_num) (by omega)
    _ ≤ k * 2 ^ f := mul_le_mul_of_nonneg_right hk' (two_zpow_pos f).le

/-- Positive doubles are ordered by exponent, then by mantissa. -/
theorem value_lt_of_lex {m k : ℕ} {e f : ℤ} (hm : 0 < m) (hk : 0 < k)
    (hx : Canonical (.finite .positive m e hm)) (hy : Canonical (.finite .positive k f hk))
    (h : toLex (e, (m : ℤ)) < toLex (f, (k : ℤ))) : (m : ℚ) * 2 ^ e < k * 2 ^ f := by
  rcases Prod.Lex.lt_iff.mp h with hlt | ⟨heq, hlt⟩
  · exact mantissa_lt_of_exponent_lt hx.1 hx.2.1 hy.2.2 hlt
  · have heq' : e = f := heq
    have hlt' : (m : ℚ) < k := by exact_mod_cast (show (m : ℤ) < k from hlt)
    rw [heq']
    exact mul_lt_mul_of_pos_right hlt' (two_zpow_pos f)

theorem value_positive_pos {m : ℕ} (e : ℤ) (hm : 0 < m) :
    0 < value (.finite .positive m e hm) :=
  mul_pos (Int.cast_pos.mpr (Int.natCast_pos.mpr hm)) (two_zpow_pos e)

theorem value_lt_of_rank_lt {a b : UnpackedFloat} (ha : a.isFinite = true)
    (hb : b.isFinite = true) (ha' : Canonical a) (hb' : Canonical b) (h : rank a < rank b) :
    value a < value b := by
  -- `contradiction` also closes the cases that the sign classes rule out
  rcases a with _ | _ | _ | ⟨⟨⟩, m, e, hm⟩ <;> try contradiction
  · rcases b with _ | _ | _ | ⟨⟨⟩, k, f, hk⟩ <;> try contradiction
    exact value_positive_pos f hk
  · rcases b with _ | _ | _ | ⟨⟨⟩, k, f, hk⟩ <;> try contradiction
    · rw [value_finite_negative]
      exact neg_lt_zero.mpr (value_positive_pos e hm)
    · rw [value_finite_negative, value_finite_negative, neg_lt_neg_iff]
      refine value_lt_of_lex hk hm hb' ha' ?_
      simp only [rank, Prod.Lex.lt_iff, lt_irrefl, false_or, true_and, ofLex_toLex] at h ⊢
      omega
    · rw [value_finite_negative]
      exact (neg_lt_zero.mpr (value_positive_pos e hm)).trans (value_positive_pos f hk)
  · rcases b with _ | _ | _ | ⟨⟨⟩, k, f, hk⟩ <;> try contradiction
    refine value_lt_of_lex hm hk ha' hb' ?_
    simpa [rank, Prod.Lex.lt_iff] using h

theorem value_eq_of_rank_eq {a b : UnpackedFloat} (ha : a.isFinite = true)
    (hb : b.isFinite = true) (h : rank a = rank b) : value a = value b := by
  rcases a with _ | _ | _ | ⟨⟨⟩, m, e, hm⟩ <;> try contradiction
  all_goals rcases b with _ | _ | _ | ⟨⟨⟩, k, f, hk⟩ <;> try contradiction
  all_goals simp_all [rank, value]

/-- **Finite doubles compare as the numbers they stand for.** -/
theorem lt_iff_toRat (hx : Scalar.isFinite x = true) (hy : Scalar.isFinite y = true) :
    Scalar.lt x y = true ↔ toRat x < toRat y := by
  rw [isFinite_eq] at hx hy
  have hx' := canonical_unpacked x
  have hy' := canonical_unpacked y
  rw [lt_iff]
  constructor
  · exact fun h => value_lt_of_rank_lt hx hy hx' hy' h.2.2
  · intro h
    refine ⟨isNaN_of_isFinite hx, isNaN_of_isFinite hy, ?_⟩
    by_contra hle
    rcases (not_lt.mp hle).lt_or_eq with hlt | heq
    · exact lt_asymm h (value_lt_of_rank_lt hy hx hy' hx' hlt)
    · exact h.ne' (value_eq_of_rank_eq hy hx heq)

theorem lt_eq_false_iff_toRat (hx : Scalar.isFinite x = true) (hy : Scalar.isFinite y = true) :
    Scalar.lt x y = false ↔ toRat y ≤ toRat x := by
  rw [← Bool.not_eq_true, lt_iff_toRat hx hy, not_lt]

theorem le_eq_false_iff_toRat (hx : Scalar.isFinite x = true) (hy : Scalar.isFinite y = true) :
    Scalar.le x y = false ↔ toRat y < toRat x := by
  rw [← lt_iff_toRat hy hx, ← Bool.not_eq_true, OrderedScalar.le_iff]
  simp [isNaN_of_isFinite hx, isNaN_of_isFinite hy]

/-! ### Roundings -/

/-- A finite double that is nearest to `v`. -/
structure IsRounding (v : ℚ) (x : Float) : Prop where
  finite : Scalar.isFinite x = true
  nearest : ∀ b, Representable b → |toRat x - v| ≤ |b - v|

namespace IsRounding

/-- Rounding does not go past a representable upper bound. -/
theorem toRat_le (h : IsRounding v x) {b : ℚ} (hb : Representable b) (hle : v ≤ b) :
    toRat x ≤ b := by
  have hnear := h.nearest b hb
  rw [abs_of_nonneg (sub_nonneg.mpr hle)] at hnear
  linarith [le_abs_self (toRat x - v)]

/-- Rounding does not go past a representable lower bound. -/
theorem le_toRat (h : IsRounding v x) {b : ℚ} (hb : Representable b) (hle : b ≤ v) :
    b ≤ toRat x := by
  have hnear := h.nearest b hb
  rw [abs_of_nonpos (sub_nonpos.mpr hle)] at hnear
  linarith [neg_abs_le (toRat x - v)]

/-- Representable numbers are not rounded. -/
theorem toRat_eq (h : IsRounding v x) (hv : Representable v) : toRat x = v :=
  le_antisymm (h.toRat_le hv le_rfl) (h.le_toRat hv le_rfl)

/-- Roundings keep the order, whichever way ties are broken. -/
theorem toRat_mono (hx : IsRounding v x) (hy : IsRounding w y) (h : v < w) :
    toRat x ≤ toRat y := by
  by_contra hgt
  rw [not_le] at hgt
  have hnearx := hx.nearest _ (representable_toRat y)
  have hneary := hy.nearest _ (representable_toRat x)
  -- were they the other way round, then each would be on its own side of their midpoint
  have hv : toRat x + toRat y ≤ 2 * v := by
    by_contra hlt
    rw [abs_of_pos (by linarith : 0 < toRat x - v)] at hnearx
    rcases abs_cases (toRat y - v) with ⟨heq, -⟩ | ⟨heq, -⟩ <;> linarith
  have hw : 2 * w ≤ toRat x + toRat y := by
    by_contra hlt
    rw [abs_of_neg (by linarith : toRat y - w < 0)] at hneary
    rcases abs_cases (toRat x - w) with ⟨heq, -⟩ | ⟨heq, -⟩ <;> linarith
  linarith

end IsRounding

theorem representable_natCast {n : ℕ} (h : n < 2 ^ 53) : Representable n :=
  ⟨n, 0, by rw [abs_of_nonneg (by positivity)]; exact_mod_cast h, by norm_num, by simp⟩

theorem representable_two_pow (n : ℕ) : Representable (2 ^ n) :=
  ⟨1, n, by norm_num, by omega, by simp⟩

theorem abs_value_finite (sign : Sign) (m : ℕ) (e : ℤ) (hm : 0 < m) :
    |value (.finite sign m e hm)| = m * 2 ^ e := by
  rw [value, abs_mul, abs_of_pos (two_zpow_pos e), ← Int.cast_abs, abs_apply, Int.cast_natCast]

/-- The largest double. -/
def largest : ℚ := (2 ^ 53 - 1) * 2 ^ (971 : ℤ)

theorem representable_largest : Representable largest :=
  ⟨2 ^ 53 - 1, 971, by norm_num, by norm_num, by rw [largest]; norm_num⟩

theorem two_pow_le_largest {n : ℕ} (h : n ≤ 1023) : 2 ^ n ≤ largest := by
  have hsplit : ((1023 : ℕ) : ℤ) = 52 + 971 := by norm_num
  calc (2 : ℚ) ^ n ≤ 2 ^ 1023 := pow_le_pow_right₀ (by norm_num) h
    _ = 2 ^ (52 : ℤ) * 2 ^ (971 : ℤ) := by rw [← zpow_natCast, hsplit, two_zpow_add]
    _ ≤ largest := mul_le_mul_of_nonneg_right (by norm_num) (two_zpow_pos 971).le

theorem abs_toRat_le_largest (x : Float) : |toRat x| ≤ largest := by
  have hcanonical := canonical_unpacked x
  have hencodable := encodable_unpacked x
  have hpos : 0 ≤ largest := mul_nonneg (by norm_num) (two_zpow_pos 971).le
  rw [toRat]
  generalize unpacked x = u at *
  rcases u with _ | _ | _ | ⟨sign, m, e, hm⟩
  iterate 3 simpa [value] using hpos
  have hm53 : (m : ℚ) ≤ 2 ^ 53 - 1 := by
    have hle : m + 1 ≤ 2 ^ 53 := hcanonical.1
    rw [le_sub_iff_add_le]
    exact_mod_cast hle
  have hpower : (2 : ℚ) ^ e ≤ 2 ^ (971 : ℤ) := zpow_le_zpow_right₀ (by norm_num) hencodable
  rw [abs_value_finite]
  exact mul_le_mul hm53 hpower (two_zpow_pos e).le (by norm_num)

theorem value_abs (u : UnpackedFloat) : value u.abs = |value u| := by
  rcases u with _ | _ | _ | ⟨sign, m, e, hm⟩
  iterate 3 exact abs_zero.symm
  rw [UnpackedFloat.abs, abs_value_finite]
  simp [value, Sign.apply]

/-- The magnitude of a finite double is exact. -/
theorem magnitude_of_isFinite (hx : Scalar.isFinite x = true) :
    Scalar.isFinite (Scalar.magnitude x) = true ∧ toRat (Scalar.magnitude x) = |toRat x| := by
  have hcanonical := canonical_unpacked x
  have hencodable := encodable_unpacked x
  have hpacked : unpacked (Scalar.magnitude x) = (Float.Model.pack (unpacked x).abs).unpack := rfl
  rw [isFinite_eq] at hx
  have habs : unpacked (Scalar.magnitude x) = (unpacked x).abs := by
    rw [hpacked]
    generalize unpacked x = u at *
    rcases u with _ | _ | _ | ⟨sign, m, e, hm⟩ <;> try contradiction
    · exact unpack_pack_of_canonical rfl trivial trivial
    · exact unpack_pack_of_canonical rfl hcanonical hencodable
  refine ⟨?_, ?_⟩
  · rw [isFinite_eq, habs]
    generalize unpacked x = u at hx
    rcases u with _ | _ | _ | _ <;> first | contradiction | rfl
  · rw [toRat, habs, value_abs]
    rfl

/-- A rounding that is not beyond the largest double fits the encoding. -/
theorem Rounds.encodable {u : UnpackedFloat} (h : Rounds v u) (hv : |v| ≤ largest) :
    Encodable u := by
  obtain ⟨hv', hv''⟩ := abs_le.mp hv
  have hbound : |value u| ≤ largest := by
    refine abs_le.mpr ⟨?_, ?_⟩
    · have hnear := h.nearest _ representable_largest.neg
      rw [abs_of_nonpos (sub_nonpos.mpr hv')] at hnear
      linarith [neg_abs_le (value u - v)]
    · have hnear := h.nearest _ representable_largest
      rw [abs_of_nonneg (sub_nonneg.mpr hv'')] at hnear
      linarith [le_abs_self (value u - v)]
  rcases u with _ | _ | _ | ⟨sign, m, e, hm⟩
  iterate 3 trivial
  -- a larger exponent comes with a leading bit
  by_contra hlarge
  have hexponent : 971 < e := not_le.mp hlarge
  have hm52 : (2 ^ 52 : ℚ) ≤ m := by exact_mod_cast h.canonical.2.2.resolve_right (by omega)
  have hgreater : largest < m * 2 ^ e := by
    have hpower : (2 : ℚ) ^ (971 + 1 : ℤ) ≤ 2 ^ e :=
      zpow_le_zpow_right₀ (by norm_num) (by omega)
    calc largest < 2 ^ 53 * 2 ^ (971 : ℤ) :=
          mul_lt_mul_of_pos_right (by norm_num) (two_zpow_pos 971)
      _ = 2 ^ 52 * 2 ^ (971 + 1 : ℤ) := by rw [two_zpow_add, zpow_one]; ring
      _ ≤ m * 2 ^ e := mul_le_mul hm52 hpower (two_zpow_pos _).le (Nat.cast_nonneg m)
  rw [abs_value_finite] at hbound
  exact absurd hbound (not_le.mpr hgreater)

/-- The encoding of a rounding. -/
theorem Rounds.isRounding {u : UnpackedFloat} (h : Rounds v u) (hv : |v| ≤ largest)
    (hx : unpacked x = (Float.Model.pack u).unpack) : IsRounding v x := by
  rw [unpack_pack_of_canonical h.finite h.canonical (h.encodable hv)] at hx
  refine ⟨?_, ?_⟩
  · rw [isFinite_eq, hx]
    exact h.finite
  · rw [toRat, hx]
    exact h.nearest

section Operations

variable (hx : Scalar.isFinite x = true) (hy : Scalar.isFinite y = true)

include hx hy

theorem isRounding_add (hv : |toRat x + toRat y| ≤ largest) :
    IsRounding (toRat x + toRat y) (x + y) :=
  (rounds_add hx hy (canonical_unpacked x) (canonical_unpacked y)).isRounding hv rfl

theorem isRounding_sub (hv : |toRat x - toRat y| ≤ largest) :
    IsRounding (toRat x - toRat y) (x - y) :=
  (rounds_sub hx hy (canonical_unpacked x) (canonical_unpacked y)).isRounding hv rfl

theorem isRounding_mul (hv : |toRat x * toRat y| ≤ largest) :
    IsRounding (toRat x * toRat y) (x * y) :=
  (rounds_mul hx hy (canonical_unpacked x) (canonical_unpacked y)).isRounding hv rfl

theorem isRounding_div (hzero : toRat y ≠ 0) (hv : |toRat x / toRat y| ≤ largest) :
    IsRounding (toRat x / toRat y) (x / y) :=
  (rounds_div hx hy hzero).isRounding hv rfl

end Operations

/-- **Natural numbers** are converted to the nearest double. -/
theorem isRounding_ofNat {n : ℕ} (hn : (n : ℚ) ≤ largest) : IsRounding n (Scalar.ofNat n) := by
  have hn' : |(n : ℚ)| ≤ largest := by rwa [abs_of_nonneg (Nat.cast_nonneg n)]
  rcases Nat.lt_or_ge n (2 ^ 53) with hlt | hge
  · -- the product with one is rounded again, but there is nothing left to round
    have hrounds : Rounds n (UnpackedFloat.ofNat .binary64 n) := by
      have hnormalize := rounds_normalize n 0 .positive
      rwa [zpow_zero, mul_one, Int.cast_natCast] at hnormalize
    have hfirst := hrounds.isRounding hn' (unpacked_toFloat hlt)
    have hvalue := hfirst.toRat_eq (representable_natCast hlt)
    have hone : toRat (Float.ofBits 0x3FF0000000000000) = 1 := by
      rw [toRat, unpacked_one, value]
      norm_num [Sign.apply]
    have hsecond := isRounding_mul hfirst.finite (y := Float.ofBits 0x3FF0000000000000)
      (by rw [isFinite_eq, unpacked_one]; rfl) (by rwa [hone, mul_one, hvalue])
    rw [hone, mul_one, hvalue, ← ofNat_of_lt hlt] at hsecond
    exact hsecond
  · have hne : n ≠ 0 := by
      rintro rfl
      norm_num at hge
    have hrepresents := represents_exact (n <<< 53) (-53)
    have hvalue : ((n <<< 53 : ℕ) : ℚ) * 2 ^ (-53 : ℤ) = n := by
      have hshift := shiftLeft_mul_two_zpow (show (-53 : ℤ) ≤ 0 by norm_num) n
      rwa [show ((0 : ℤ) - -53).toNat = 53 from rfl, zpow_zero, mul_one] at hshift
    rw [hvalue] at hrepresents
    have hrounds := rounds_roundWithAccuracy .positive hrepresents (by
      rw [targetExponent_binary64]
      simp only [totalExponent, log2_shiftLeft hne]
      omega)
    rw [← ofScientific_eq hne] at hrounds
    refine Rounds.isRounding (by simpa [Sign.apply] using hrounds) hn' ?_
    rw [← unpacked_ofScientific, ← ofNat_of_le hge]
    rfl

end BlockAffinity.Double
