import BlockAffinity.Decimal.Binary64
import BlockAffinity.Proofs.Number.Counting

/-!
# BlockAffinity.Proofs.Decimal.Binary64

**Decoding a double** reads off its bits what unpacking it gives (`Binary64.ofFloat_eq`). The three
fields are the same numbers, whether they are cut out of a bit vector or taken by division.

`Decodes` says what is known of the parts of a finite double. They determine it
(`Decodes.unique`), and changing the sign changes nothing else (`Decodes.neg`).
-/

namespace BlockAffinity.Decimal

open Double Float.Model Float.Model.UnpackedFloat

/-- Whether a sign is a minus. -/
def isMinus : Sign → Bool
  | .negative => true
  | .positive => false

/-- What an unpacked double stands for. -/
def Binary64.ofUnpacked : UnpackedFloat → Binary64
  | .notANumber => .nan
  | .infinity sign => .infinite (isMinus sign)
  | .zero sign => .finite (isMinus sign) 0 (-1074)
  | .finite sign mantissa exponent _ => .finite (isMinus sign) mantissa exponent

/-! ### The fields -/

variable (bits : BitVec Format.binary64.numBits)

theorem toNat_unpackMantissa :
    (unpackMantissa bits : BitVec 52).toNat = bits.toNat % 2 ^ 52 := by
  unfold unpackMantissa
  rw [BitVec.toNat_cast, BitVec.extractLsb_toNat, Nat.shiftRight_zero]
  rfl

theorem toNat_unpackExponent :
    (unpackExponent bits : BitVec 11).toNat = bits.toNat / 2 ^ 52 % 2 ^ 11 := by
  unfold unpackExponent
  rw [BitVec.toNat_cast, BitVec.extractLsb_toNat, Nat.shiftRight_eq_div_pow]
  rfl

theorem toNat_unpackSign : (unpackSign bits).toNat = bits.toNat / 2 ^ 63 := by
  have hbits : bits.toNat < 2 ^ 64 := bits.isLt
  unfold unpackSign
  rw [BitVec.toNat_cast, BitVec.extractLsb_toNat, Nat.shiftRight_eq_div_pow]
  show bits.toNat / 2 ^ 63 % 2 ^ 1 = _
  omega

theorem isMinus_unpackSign :
    isMinus (Sign.ofBitVec (unpackSign bits)) = (bits.toNat / 2 ^ 63 == 1) := by
  have hbits : bits.toNat < 2 ^ 64 := bits.isLt
  have hsign := toNat_unpackSign bits
  unfold Sign.ofBitVec
  split_ifs with hzero
  · rw [hzero, BitVec.toNat_ofNat] at hsign
    rw [← hsign]
    rfl
  · have hne : (unpackSign bits).toNat ≠ 0 := fun h => hzero (BitVec.eq_of_toNat_eq h)
    have hone : bits.toNat / 2 ^ 63 = 1 := by omega
    rw [hone]
    rfl

/-- **The decoded bits** are the unpacked ones. -/
theorem Binary64.ofBits_eq {word : UInt64} (hword : word.toNat = bits.toNat) :
    Binary64.ofBits word = .ofUnpacked (UnpackedFloat.unpack .binary64 bits) := by
  have hpow : ∀ n, Nat.pow 2 n = 2 ^ n := fun _ => rfl
  have hbias : Format.binary64.exponentBias = 1023 := by decide
  have hfull : (unpackExponent bits : BitVec 11) = -1#11 ↔
      (unpackExponent bits : BitVec 11).toNat = 2047 :=
    ⟨fun h => by rw [h]; rfl, fun h => BitVec.eq_of_toNat_eq (by rw [h]; rfl)⟩
  have hempty : (unpackExponent bits : BitVec 11) = 0#11 ↔
      (unpackExponent bits : BitVec 11).toNat = 0 :=
    ⟨fun h => by rw [h]; rfl, fun h => BitVec.eq_of_toNat_eq h⟩
  have hnone : (unpackMantissa bits : BitVec 52) = 0#52 ↔
      (unpackMantissa bits : BitVec 52).toNat = 0 :=
    ⟨fun h => by rw [h]; rfl, fun h => BitVec.eq_of_toNat_eq h⟩
  have hleading : (1#1 ++ (unpackMantissa bits : BitVec 52)).toNat =
      (unpackMantissa bits : BitVec 52).toNat + 2 ^ 52 := by
    rw [BitVec.toNat_append, ← Nat.shiftLeft_add_eq_or_of_lt (BitVec.isLt _), Nat.add_comm]
    rfl
  unfold Binary64.ofBits UnpackedFloat.unpack
  simp only [hpow, hword]
  rw [← toNat_unpackMantissa, ← toNat_unpackExponent, ← isMinus_unpackSign]
  by_cases hmax : (unpackExponent bits : BitVec 11) = -1#11
  · rw [if_pos (hfull.mp hmax), if_pos hmax]
    by_cases hzero : (unpackMantissa bits : BitVec 52) = 0#52
    · rw [if_pos (hnone.mp hzero), if_pos hzero]
      rfl
    · rw [if_neg (mt hnone.mpr hzero), if_neg hzero]
      rfl
  · rw [if_neg (mt hfull.mpr hmax), if_neg hmax]
    by_cases hmin : (unpackExponent bits : BitVec 11) = 0#11
    · rw [if_pos (hempty.mp hmin), if_pos hmin]
      by_cases hzero : (unpackMantissa bits : BitVec 52) = 0#52
      · rw [dif_pos hzero, hnone.mp hzero]
        rfl
      · rw [dif_neg hzero, Binary64.ofUnpacked, hempty.mp hmin, hbias]
        rfl
    · rw [if_neg (mt hempty.mpr hmin), if_neg hmin, Binary64.ofUnpacked, hleading, hbias]
      rfl

theorem Binary64.ofFloat_eq (x : Float) : Binary64.ofFloat x = .ofUnpacked (unpacked x) :=
  Binary64.ofBits_eq _ rfl

/-! ### Finite doubles -/

/-- A finite double with its sign, its significand and its exponent. -/
structure Decodes (x : Float) (negative : Bool) (m : ℕ) (e : ℤ) : Prop where
  finite : Scalar.isFinite x = true
  ofFloat : Binary64.ofFloat x = .finite negative m e
  toRat_eq : toRat x = (if negative then -1 else 1) * (m * 2 ^ e)
  lt : m < 2 ^ 53
  low_le : -1074 ≤ e
  le_high : e ≤ 971
  full : 2 ^ 52 ≤ m ∨ e = -1074

variable {x y : Float} {negative : Bool} {m : ℕ} {e : ℤ}

/-- A finite double has parts. -/
theorem exists_decodes (hx : Scalar.isFinite x = true) : ∃ negative m e, Decodes x negative m e := by
  have hcanonical := canonical_unpacked x
  have hencodable := encodable_unpacked x
  have hofFloat := Binary64.ofFloat_eq x
  have hvalue : toRat x = value (unpacked x) := rfl
  have hfinite := hx
  rw [isFinite_eq] at hfinite
  generalize unpacked x = u at *
  rcases u with _ | _ | sign | ⟨sign, m, e, hm⟩ <;> try contradiction
  · exact ⟨_, _, _, hx, hofFloat, by simp [hvalue, value], by norm_num, le_rfl, by norm_num,
      .inr rfl⟩
  · refine ⟨_, _, _, hx, hofFloat, ?_, hcanonical.1, hcanonical.2.1, hencodable, hcanonical.2.2⟩
    cases sign <;> simp [hvalue, value, Sign.apply, isMinus]

/-- A double that is decoded into parts is finite. -/
theorem decodes_of_ofFloat (h : Binary64.ofFloat x = .finite negative m e) :
    Decodes x negative m e := by
  have hfinite : Scalar.isFinite x = true := by
    rw [isFinite_eq]
    rw [Binary64.ofFloat_eq] at h
    generalize unpacked x = u at *
    rcases u with _ | _ | sign | _ <;> first | rfl | cases h
  obtain ⟨negative', m', e', hdecodes⟩ := exists_decodes hfinite
  have hsame := hdecodes.ofFloat.symm.trans h
  injection hsame with hnegative hm he
  exact hnegative ▸ hm ▸ he ▸ hdecodes

/-- What two doubles are decoded into tells whether they unpack to the same. -/
theorem Binary64.unpacked_unique {u w : UnpackedFloat} (hu : ofUnpacked u = .finite negative m e)
    (hw : ofUnpacked w = .finite negative m e) : u = w := by
  rcases u with _ | _ | ⟨⟨⟩⟩ | ⟨⟨⟩, k, f, hk⟩ <;> try cases hu
  all_goals rcases w with _ | _ | ⟨⟨⟩⟩ | ⟨⟨⟩, l, g, hl⟩ <;> try cases hw
  -- only a zero has no significand
  all_goals first
    | rfl
    | exact absurd rfl (Nat.ne_of_gt ‹0 < 0›)

namespace Decodes

/-- **Doubles with the same parts** are the same. -/
theorem unique (hx : Decodes x negative m e) (hy : Decodes y negative m e) : x = y :=
  ext_unpacked (Binary64.unpacked_unique ((Binary64.ofFloat_eq x).symm.trans hx.ofFloat)
    ((Binary64.ofFloat_eq y).symm.trans hy.ofFloat))

/-- **Negation** turns the sign around. -/
theorem neg (hx : Decodes x negative m e) : Decodes (-x) (!negative) m e := by
  apply decodes_of_ofFloat
  have hcanonical := canonical_unpacked x
  have hencodable := encodable_unpacked x
  have hfinite := hx.finite
  have hofFloat := hx.ofFloat
  have hpacked : unpacked (-x) = (Float.Model.pack (unpacked x).neg).unpack := rfl
  rw [isFinite_eq] at hfinite
  rw [Binary64.ofFloat_eq] at hofFloat ⊢
  have hneg : unpacked (-x) = (unpacked x).neg := by
    rw [hpacked]
    generalize unpacked x = u at *
    rcases u with _ | _ | _ | _ <;> try contradiction
    · exact unpack_pack_of_canonical rfl trivial trivial
    · exact unpack_pack_of_canonical rfl hcanonical hencodable
  rw [hneg]
  generalize unpacked x = u at *
  rcases u with _ | _ | ⟨⟨⟩⟩ | ⟨⟨⟩, k, f, hk⟩ <;> cases hofFloat <;> rfl

end Decodes

end BlockAffinity.Decimal
