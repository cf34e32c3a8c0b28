import BlockAffinity.Proofs.Number.Double

/-!
# BlockAffinity.Proofs.Number.Nonnegative

**Doubles that are not negative stay so** under the operations that update distances: sums, the
division of a sum by a number of pairs, and square roots of what has been raised to zero. In
particular no NaN comes up, also where a sum or a square overflows to infinity.

A division needs a divisor that is neither zero nor infinite. `Normal` is what the conversion of a
positive natural number gives (`normal_ofNat`), as long as the number is below `2 ^ 128`.
-/

namespace BlockAffinity.Double

open Float.Model Float.Model.UnpackedFloat

/-- A zero of either sign, a positive number or positive infinity. -/
def Nonnegative : UnpackedFloat → Prop
  | .zero _ => True
  | .finite .positive _ _ _ => True
  | .infinity .positive => True
  | _ => False

/-- A positive number with a full mantissa and an exponent between two bounds. -/
def Normal (low high : Int) : UnpackedFloat → Prop
  | .finite .positive mantissa exponent _ =>
      2 ^ 52 ≤ mantissa ∧ mantissa < 2 ^ 53 ∧ low ≤ exponent ∧ exponent ≤ high
  | _ => False

theorem nonnegative_iff {x : Float} :
    Nonnegative (unpacked x) ↔ Scalar.isNaN x = false ∧ Scalar.lt x Scalar.zero = false := by
  have hzero : unpacked (Scalar.zero : Float) = .zero .positive := by rfl
  rw [isNaN_eq, lt_eq, hzero]
  rcases unpacked x with ⟨⟨⟩⟩ | _ | _ | ⟨⟨⟩, m, e, h⟩ <;>
    simp [Nonnegative, UnpackedFloat.isNaN, UnpackedFloat.lt, UnpackedFloat.compare]

/-! ### Packing -/

@[simp] theorem unpackSign_packComponents {spec : Format} {sign exponent mantissa} :
    unpackSign (packComponents spec sign exponent mantissa) = sign.toBitVec := by
  ext i hi
  obtain rfl : i = 0 := by omega
  simp [unpackSign, packComponents, BitVec.getLsbD_append, BitVec.getElem_append]

@[simp] theorem ofBitVec_toBitVec (sign : Sign) : Sign.ofBitVec sign.toBitVec = sign := by
  cases sign <;> rfl

theorem unpack_pack (u : UnpackedFloat) :
    (Float.Model.pack u).unpack = UnpackedFloat.unpack .binary64 (UnpackedFloat.pack .binary64 u) :=
  rfl

/-- Bits with the sign of positive numbers unpack to a double that is not negative, unless they
encode a NaN. -/
theorem nonnegative_unpack {exponent : BitVec Format.binary64.exponentBits}
    {mantissa : BitVec Format.binary64.mantissaBitsWithoutImplicit}
    (h : exponent = -1#_ → mantissa = 0#_) :
    Nonnegative (UnpackedFloat.unpack .binary64
      (packComponents .binary64 .positive exponent mantissa)) := by
  unfold UnpackedFloat.unpack
  simp only [unpackMantissa_packComponents, unpackExponent_packComponents,
    unpackSign_packComponents, ofBitVec_toBitVec]
  split_ifs with hmax hmantissa hzero hmantissa
  · trivial
  · exact absurd (h hmax) hmantissa
  · trivial
  · trivial
  · trivial

theorem nonnegative_pack {u : UnpackedFloat} (h : Nonnegative u) :
    Nonnegative (Float.Model.pack u).unpack := by
  rw [unpack_pack]
  rcases u with ⟨⟨⟩⟩ | _ | sign | ⟨⟨⟩, m, e, hm⟩
  · exact absurd h id
  · exact nonnegative_unpack fun _ => rfl
  · exact absurd h id
  · cases sign <;> exact trivial
  · exact absurd h id
  · unfold UnpackedFloat.pack
    dsimp only
    split_ifs with hlarge hnormal
    · exact nonnegative_unpack fun _ => rfl
    · -- the exponent fits, so it is not the one reserved for infinity and NaN
      refine nonnegative_unpack fun heq => ?_
      have hvalue := congrArg BitVec.toNat heq
      rw [BitVec.toNat_ofNat, BitVec.neg_one_eq_allOnes, BitVec.toNat_allOnes] at hvalue
      simp only [Format.exponentBias] at hvalue hlarge
      omega
    · exact nonnegative_unpack fun heq => absurd heq (by decide)

/-! ### Operations -/

theorem nonnegative_roundWithAccuracy (spec : Format) (m : Nat) (e : Int) (accuracy : Accuracy) :
    Nonnegative (roundWithAccuracy spec .positive m e accuracy) := by
  unfold roundWithAccuracy
  dsimp only
  split_ifs <;> trivial

theorem nonnegative_add (spec : Format) {x y : UnpackedFloat} (hx : Nonnegative x)
    (hy : Nonnegative y) : Nonnegative (UnpackedFloat.add spec x y) := by
  rcases x with ⟨⟨⟩⟩ | _ | ⟨⟨⟩⟩ | ⟨⟨⟩, m, e, hm⟩ <;>
    rcases y with ⟨⟨⟩⟩ | _ | ⟨⟨⟩⟩ | ⟨⟨⟩, k, f, hk⟩ <;>
    first | exact absurd hx id | exact absurd hy id | exact trivial | skip
  -- the sum of two positive mantissas is rounded as a positive number
  unfold UnpackedFloat.add UnpackedFloat.normalize
  dsimp only
  split
  · rename_i hlt
    have hneg := compare_lt_iff_lt.mp hlt
    simp only [Sign.apply] at hneg
    omega
  · trivial
  · exact nonnegative_roundWithAccuracy _ _ _ _

theorem nonnegative_div (spec : Format) {x y : UnpackedFloat} {low high : Int}
    (hx : Nonnegative x) (hy : Normal low high y) : Nonnegative (UnpackedFloat.div spec x y) := by
  rcases y with _ | _ | _ | ⟨⟨⟩, k, f, hk⟩ <;> try exact absurd hy id
  rcases x with ⟨⟨⟩⟩ | _ | _ | ⟨⟨⟩, m, e, hm⟩ <;> first | exact absurd hx id | exact trivial | skip
  exact nonnegative_roundWithAccuracy _ _ _ _

theorem nonnegative_sqrt (spec : Format) {x : UnpackedFloat} (hx : Nonnegative x) :
    Nonnegative (UnpackedFloat.sqrt spec x) := by
  rcases x with ⟨⟨⟩⟩ | _ | _ | ⟨⟨⟩, m, e, hm⟩ <;> first | exact absurd hx id | exact trivial | skip
  exact nonnegative_roundWithAccuracy _ _ _ _

/-! ### Rounding a full mantissa -/

theorem mantissa_shiftRight (em : ExtendedMantissa) (n : Nat) :
    (em >>> n).mantissa = em.mantissa / 2 ^ n := by
  induction n with
  | zero => simp [HShiftRight.hShiftRight, Nat.repeat]
  | succ n ih =>
      rw [Nat.pow_succ, ← Nat.div_div_eq_div_mul, ← ih]
      rfl

theorem mantissa_ofMantissaAndAccuracy (m : Nat) (accuracy : Accuracy) :
    (ExtendedMantissa.ofMantissaAndAccuracy m accuracy).mantissa = m := by
  rcases accuracy with _ | ⟨⟨⟩⟩ <;> rfl

theorem roundedMantissa_mem (em : ExtendedMantissa) :
    em.mantissa ≤ em.roundedMantissa ∧ em.roundedMantissa ≤ em.mantissa + 1 := by
  rcases em with ⟨m, _ | _, _ | _⟩ <;>
    simp only [ExtendedMantissa.roundedMantissa, ExtendedMantissa.accuracy,
      Accuracy.roundToNearestEven] <;>
    omega

/-- The leading 53 bits of a number that has that many. -/
theorem leading_bits {m : Nat} (hm : 2 ^ 52 ≤ m) :
    52 ≤ m.log2 ∧ 2 ^ 52 ≤ m / 2 ^ (m.log2 - 52) ∧ m / 2 ^ (m.log2 - 52) < 2 ^ 53 := by
  have hne : m ≠ 0 := by omega
  have hlog : 52 ≤ m.log2 := (Nat.le_log2 hne).mpr hm
  refine ⟨hlog, ?_, ?_⟩
  · rw [Nat.le_div_iff_mul_le (Nat.two_pow_pos _), ← Nat.pow_add, Nat.add_sub_cancel' hlog]
    exact Nat.log2_self_le hne
  · rw [Nat.div_lt_iff_lt_mul (Nat.two_pow_pos _), ← Nat.pow_add]
    have hsum : 53 + (m.log2 - 52) = m.log2 + 1 := by omega
    rw [hsum]
    exact Nat.lt_log2_self

theorem shiftToTargetExponent_full {m : Nat} {e : Int} (accuracy : Accuracy) (hm : 2 ^ 52 ≤ m)
    (hlow : -1021 ≤ totalExponent m e) :
    (shiftToTargetExponent .binary64 m e accuracy).1.mantissa = m / 2 ^ (m.log2 - 52) ∧
      (shiftToTargetExponent .binary64 m e accuracy).2 = totalExponent m e - 53 := by
  obtain ⟨hlog, -, -⟩ := leading_bits hm
  have htarget : Format.binary64.targetExponent (totalExponent m e) = totalExponent m e - 53 := by
    simp only [Format.targetExponent, Format.minExponent, Format.mantissaBits]
    omega
  have hshift : (totalExponent m e - 53 - e).toNat = m.log2 - 52 := by
    simp only [totalExponent]
    omega
  simp only [shiftToTargetExponent, shiftToExponent, htarget, hshift, mantissa_shiftRight,
    mantissa_ofMantissaAndAccuracy, true_and]
  simp only [totalExponent]
  omega

theorem normal_roundWithAccuracy {m : Nat} {e low high : Int} (accuracy : Accuracy)
    (hm : 2 ^ 52 ≤ m) (hmin : -1074 ≤ low) (hlow : low + 53 ≤ totalExponent m e)
    (hhigh : totalExponent m e ≤ high + 52) :
    Normal low high (roundWithAccuracy .binary64 .positive m e accuracy) := by
  obtain ⟨-, hge, hlt⟩ := leading_bits hm
  obtain ⟨hmantissa, hexponent⟩ := shiftToTargetExponent_full (e := e) accuracy hm (by omega)
  obtain ⟨hrounded, hrounded'⟩ :=
    roundedMantissa_mem (shiftToTargetExponent .binary64 m e accuracy).1
  rw [hmantissa] at hrounded hrounded'
  unfold roundWithAccuracy
  dsimp only
  generalize (shiftToTargetExponent .binary64 m e accuracy).1.roundedMantissa = r at *
  rw [hexponent]
  -- rounding up may have made the mantissa one bit longer
  have hr : 2 ^ 52 ≤ r := hge.trans hrounded
  obtain ⟨hlog, hge', hlt'⟩ := leading_bits hr
  have hlog' : r.log2 ≤ 53 := by
    have hne : r ≠ 0 := by omega
    have hself := Nat.log2_self_le hne
    by_contra hgt
    have hpow : 2 ^ 54 ≤ 2 ^ r.log2 := Nat.pow_le_pow_right (by decide) (by omega)
    omega
  have htotal : totalExponent r (totalExponent m e - 53) = r.log2 - 52 + totalExponent m e := by
    simp only [totalExponent]
    omega
  obtain ⟨hmantissa', hexponent'⟩ :=
    shiftToTargetExponent_full (e := totalExponent m e - 53) .exact hr (by omega)
  have hne :
      ¬(shiftToTargetExponent .binary64 r (totalExponent m e - 53) .exact).1.mantissa = 0 := by
    rw [hmantissa']
    omega
  rw [dif_neg hne]
  refine ⟨?_, ?_, ?_, ?_⟩
  · rw [hmantissa']
    exact hge'
  · rw [hmantissa']
    exact hlt'
  · rw [hexponent', htotal]
    omega
  · rw [hexponent', htotal]
    omega

/-- A double with a full mantissa survives packing. -/
theorem unpack_pack_of_full (sign : Sign) {m : Nat} {e : Int} (hm : 0 < m) (hm52 : 2 ^ 52 ≤ m)
    (hm53 : m < 2 ^ 53) (he : -1074 ≤ e) (he' : e ≤ 971) :
    (Float.Model.pack (.finite sign m e hm)).unpack = .finite sign m e hm := by
  have hlog : m.log2 = 52 := by
    have := (Nat.le_log2 hm.ne').mpr hm52
    have := (Nat.log2_lt hm.ne').mpr hm53
    omega
  have hbiased : (e + Format.binary64.exponentBias + (52 : Nat)).toNat = (e + 1075).toNat := by
    simp only [Format.exponentBias]
    omega
  have hmantissa : (1#1 ++ BitVec.ofNat 52 m).toNat = m := by
    rw [BitVec.toNat_append, ← Nat.shiftLeft_add_eq_or_of_lt (BitVec.isLt _)]
    simp only [BitVec.toNat_ofNat, Nat.shiftLeft_eq]
    omega
  rw [unpack_pack]
  unfold UnpackedFloat.pack
  dsimp only
  rw [hlog, if_neg (by rw [hbiased]; omega), if_pos (by rfl), hbiased]
  unfold UnpackedFloat.unpack
  simp only [unpackMantissa_packComponents, unpackExponent_packComponents,
    unpackSign_packComponents, ofBitVec_toBitVec]
  have hexponent : (BitVec.ofNat 11 (e + 1075).toNat).toNat = (e + 1075).toNat := by
    rw [BitVec.toNat_ofNat, Nat.mod_eq_of_lt (by omega)]
  have hmax : BitVec.ofNat 11 (e + 1075).toNat ≠ -1#_ := by
    intro heq
    have hvalue := congrArg BitVec.toNat heq
    rw [hexponent, BitVec.neg_one_eq_allOnes, BitVec.toNat_allOnes] at hvalue
    omega
  have hzero : BitVec.ofNat 11 (e + 1075).toNat ≠ 0#_ := by
    intro heq
    have hvalue := congrArg BitVec.toNat heq
    rw [hexponent, BitVec.toNat_zero] at hvalue
    omega
  rw [if_neg hmax, if_neg hzero, UnpackedFloat.finite.injEq]
  refine ⟨rfl, hmantissa, ?_⟩
  rw [hexponent]
  simp only [Format.exponentBias]
  omega

/-- A normal double survives packing. -/
theorem unpack_pack_of_normal {u : UnpackedFloat} {low high : Int} (h : Normal low high u)
    (hlow : -1074 ≤ low) (hhigh : high ≤ 971) : (Float.Model.pack u).unpack = u := by
  rcases u with _ | _ | _ | ⟨⟨⟩, m, e, hm⟩ <;> try exact absurd h id
  obtain ⟨hm52, hm53, he, he'⟩ := h
  exact unpack_pack_of_full .positive hm hm52 hm53 (hlow.trans he) (he'.trans hhigh)

/-! ### Natural numbers as doubles -/

theorem shiftLeft_ne_zero {n : Nat} (hn : n ≠ 0) (k : Nat) : n <<< k ≠ 0 := by
  rw [Nat.shiftLeft_eq]
  exact Nat.mul_ne_zero hn (Nat.two_pow_pos k).ne'

theorem log2_shiftLeft {n : Nat} (hn : n ≠ 0) (k : Nat) : (n <<< k).log2 = n.log2 + k := by
  rw [Nat.log2_eq_iff (shiftLeft_ne_zero hn k), Nat.shiftLeft_eq]
  have hself : 2 ^ n.log2 ≤ n := Nat.log2_self_le hn
  have hself' : n < 2 ^ (n.log2 + 1) := Nat.lt_log2_self
  constructor
  · rw [Nat.pow_add]
    exact Nat.mul_le_mul_right _ hself
  · rw [Nat.add_right_comm, Nat.pow_add]
    exact Nat.mul_lt_mul_of_pos_right hself' (Nat.two_pow_pos k)

theorem normal_round {n : Nat} (hpos : 0 < n) (hlt : n < 2 ^ 53) :
    Normal (-52) 1 (UnpackedFloat.round .binary64 .positive n 0) := by
  have hne : n ≠ 0 := hpos.ne'
  have hlog : n.log2 < 53 := (Nat.log2_lt hne).mpr hlt
  have htarget : Format.binary64.targetExponent (totalExponent n 0) = n.log2 - 52 := by
    simp only [Format.targetExponent, Format.minExponent, Format.mantissaBits, totalExponent]
    omega
  have hshift : (0 - ((n.log2 : Int) - 52)).toNat = 52 - n.log2 := by omega
  have hbits : (n <<< (52 - n.log2)).log2 = 52 := by
    rw [log2_shiftLeft hne]
    omega
  have hfull : 2 ^ 52 ≤ n <<< (52 - n.log2) := by
    have hself := Nat.log2_self_le (shiftLeft_ne_zero hne (52 - n.log2))
    rwa [hbits] at hself
  unfold UnpackedFloat.round decreaseExponent
  dsimp only
  rw [htarget, hshift]
  refine normal_roundWithAccuracy .exact hfull (by decide) ?_ ?_
  · simp only [totalExponent, hbits]
    omega
  · simp only [totalExponent, hbits]
    omega

theorem ofNat_eq_round {n : Nat} (hpos : 0 < n) :
    UnpackedFloat.ofNat .binary64 n = UnpackedFloat.round .binary64 .positive n 0 := by
  have hgt : compare (n : Int) 0 = .gt := compare_gt_iff_gt.mpr (by omega)
  simp only [UnpackedFloat.ofNat, UnpackedFloat.ofInt, UnpackedFloat.normalize, hgt,
    Int.toNat_natCast]

theorem unpacked_mul (x y : Float) : unpacked (x * y) =
    (Float.Model.pack (UnpackedFloat.mul .binary64 (unpacked x) (unpacked y))).unpack :=
  rfl

theorem unpacked_one : unpacked (Float.ofBits 0x3FF0000000000000) =
    .finite .positive (2 ^ 52) (-52) (by decide) := by
  rfl

/-- The conversion of a small number rounds it and multiplies it by one. -/
theorem ofNat_of_lt {n : Nat} (hlt : n < 2 ^ 53) :
    Float.ofNat n = n.toUInt64.toFloat * Float.ofBits 0x3FF0000000000000 := by
  unfold Float.ofNat OfScientific.ofScientific instOfScientificFloat Float.ofScientific
  dsimp only
  rw [dif_pos ⟨hlt, by decide⟩]
  rfl

theorem unpacked_toFloat {n : Nat} (hlt : n < 2 ^ 53) : unpacked n.toUInt64.toFloat =
    (Float.Model.pack (UnpackedFloat.ofNat .binary64 n)).unpack := by
  have hconvert : n.toUInt64.toNat = n := Nat.mod_eq_of_lt (by omega)
  have hpack : unpacked n.toUInt64.toFloat =
      (Float.Model.pack (UnpackedFloat.ofNat .binary64 n.toUInt64.toNat)).unpack := rfl
  rw [hpack, hconvert]

theorem normal_ofNat_of_lt {n : Nat} (hpos : 0 < n) (hlt : n < 2 ^ 53) :
    Normal (-52) 2 (unpacked (Float.ofNat n)) := by
  have hrounded : unpacked n.toUInt64.toFloat = UnpackedFloat.round .binary64 .positive n 0 := by
    rw [unpacked_toFloat hlt, ofNat_eq_round hpos,
      unpack_pack_of_normal (normal_round hpos hlt) (by decide) (by decide)]
  rw [ofNat_of_lt hlt, unpacked_mul, unpacked_one, hrounded]
  have hnormal := normal_round hpos hlt
  generalize UnpackedFloat.round .binary64 .positive n 0 = u at hnormal
  rcases u with _ | _ | _ | ⟨⟨⟩, m, e, hm⟩ <;> try exact absurd hnormal id
  obtain ⟨hm52, hm53, he, he'⟩ := hnormal
  have hlog : (m * 2 ^ 52).log2 = 104 := by
    rw [Nat.log2_eq_iff (by omega)]
    omega
  have hmul : Normal (-52) 2 (UnpackedFloat.mul .binary64 (.finite .positive m e hm)
      (.finite .positive (2 ^ 52) (-52) (by decide))) := by
    refine normal_roundWithAccuracy .exact (by omega) (by decide) ?_ ?_
    · simp only [totalExponent, hlog]
      omega
    · simp only [totalExponent, hlog]
      omega
  rwa [unpack_pack_of_normal hmul (by decide) (by decide)]

theorem ofScientific_eq {n : Nat} (hne : n ≠ 0) : UnpackedFloat.ofScientific .binary64 n 0 =
    roundWithAccuracy .binary64 .positive (n <<< 53) (-53) .exact := by
  have hlow : ¬(0 : Int) < -((2 ^ Format.binary64.exponentBits : Int) + n.log2) := by
    have hpow : (2 ^ Format.binary64.exponentBits : Int) = 2048 := by decide
    rw [hpow]
    omega
  unfold UnpackedFloat.ofScientific
  rw [dif_neg hne, if_neg (by decide), if_neg hlow, if_pos (by decide)]
  simp only [UnpackedFloat.mul, Int.toNat_zero, Nat.pow_zero, Nat.mul_one, Int.add_zero]
  rfl

/-- The conversion of a large number rounds it. -/
theorem ofNat_of_le {n : Nat} (hle : 2 ^ 53 ≤ n) :
    Float.ofNat n = Float.ofModel (Float.Model.ofScientific n 0) := by
  unfold Float.ofNat OfScientific.ofScientific instOfScientificFloat Float.ofScientific
  dsimp only
  rw [dif_neg (fun h => Nat.not_lt.mpr hle h.1)]
  rfl

theorem unpacked_ofScientific (n : Nat) : unpacked (Float.ofModel (Float.Model.ofScientific n 0)) =
    (Float.Model.pack (UnpackedFloat.ofScientific .binary64 n 0)).unpack :=
  rfl

theorem normal_ofNat_of_le {n : Nat} (hle : 2 ^ 53 ≤ n) (hlt : n < 2 ^ 128) :
    Normal 0 76 (unpacked (Float.ofNat n)) := by
  have hne : n ≠ 0 := by omega
  have hlog : n.log2 < 128 := (Nat.log2_lt hne).mpr hlt
  have hlog' : 53 ≤ n.log2 := (Nat.le_log2 hne).mpr hle
  have hbits : (n <<< 53).log2 = n.log2 + 53 := log2_shiftLeft hne 53
  have hfull : 2 ^ 52 ≤ n <<< 53 := by
    rw [Nat.shiftLeft_eq]
    omega
  rw [ofNat_of_le hle, unpacked_ofScientific, ofScientific_eq hne]
  generalize n <<< 53 = m at hbits hfull
  have hnormal : Normal 0 76 (roundWithAccuracy .binary64 .positive m (-53) .exact) := by
    refine normal_roundWithAccuracy .exact hfull (by decide) ?_ ?_
    · simp only [totalExponent, hbits]
      omega
    · simp only [totalExponent, hbits]
      omega
  rwa [unpack_pack_of_normal hnormal (by decide) (by decide)]

theorem Normal.weaken {u : UnpackedFloat} {low high low' high' : Int} (h : Normal low high u)
    (hlow : low' ≤ low) (hhigh : high ≤ high') : Normal low' high' u := by
  rcases u with _ | _ | _ | ⟨⟨⟩, m, e, hm⟩ <;> try exact absurd h id
  exact ⟨h.1, h.2.1, hlow.trans h.2.2.1, h.2.2.2.trans hhigh⟩

/-- **A positive number below `2 ^ 128`** becomes a normal double. -/
theorem normal_ofNat {n : Nat} (hpos : 0 < n) (hlt : n < 2 ^ 128) :
    Normal (-52) 76 (unpacked (Float.ofNat n)) := by
  rcases Nat.lt_or_ge n (2 ^ 53) with hsmall | hlarge
  · exact (normal_ofNat_of_lt hpos hsmall).weaken (by decide) (by decide)
  · exact (normal_ofNat_of_le hlarge hlt).weaken (by decide) (by decide)

/-! ### Distances -/

/-- A double that can be a distance: no NaN, and not below zero. -/
def IsDistance (x : Float) : Prop := Nonnegative (unpacked x)

variable {x y : Float}

theorem isDistance_iff :
    IsDistance x ↔ Scalar.isNaN x = false ∧ Scalar.lt x Scalar.zero = false :=
  nonnegative_iff

theorem isNaN_of_isFinite (h : Scalar.isFinite x = true) : Scalar.isNaN x = false := by
  have hfinite : (unpacked x).isFinite = true := h
  rw [isNaN_eq]
  cases hx : unpacked x with
  | notANumber => simp [hx, UnpackedFloat.isFinite] at hfinite
  | infinity sign => rfl
  | zero sign => rfl
  | finite sign m e hm => rfl

theorem isDistance_zero : IsDistance Scalar.zero := trivial

theorem IsDistance.add (hx : IsDistance x) (hy : IsDistance y) : IsDistance (x + y) :=
  nonnegative_pack (nonnegative_add .binary64 hx hy)

theorem IsDistance.div_ofNat (hx : IsDistance x) {n : Nat} (hpos : 0 < n) (hlt : n < 2 ^ 128) :
    IsDistance (x / Scalar.ofNat n) :=
  nonnegative_pack (nonnegative_div .binary64 hx (normal_ofNat hpos hlt))

theorem IsDistance.sqrt (hx : IsDistance x) : IsDistance (Scalar.sqrt x) :=
  nonnegative_pack (nonnegative_sqrt .binary64 hx)

/-- Raising to zero also turns a NaN into a distance. -/
theorem isDistance_maximum (x : Float) : IsDistance (Scalar.maximum x Scalar.zero) := by
  have hcases : IsDistance (if Scalar.isNaN x then Scalar.zero
      else if Scalar.lt x Scalar.zero then Scalar.zero else x) := by
    cases hnan : Scalar.isNaN x with
    | true => exact isDistance_zero
    | false =>
        cases hlt : Scalar.lt x Scalar.zero with
        | true => exact isDistance_zero
        | false => exact isDistance_iff.mpr ⟨hnan, hlt⟩
  simpa [Scalar.maximum, Scalar.lt, Scalar.isNaN] using hcases

end BlockAffinity.Double
