import BlockAffinity.Proofs.Number.NeutralZero
import BlockAffinity.Proofs.Number.Range

/-!
# BlockAffinity.Proofs.Number.Counting

**Whole numbers among scalars.** Scalars count up to a limit if adding up whole numbers is exact as long
as the sum does not exceed it (`CountsUpTo`). Exact numbers count without a limit, doubles up to `2 ^ 53`
(`Double.countsUpTo`): there a sum is not only near a double but is one, and a double that is not zero
is told by its number (`Double.ext_toRat`).
-/

namespace BlockAffinity

open Scalar OrderedScalar

/-- Scalars that add up whole numbers exactly as long as the sum is not above a limit. -/
structure CountsUpTo (α : Type) [Scalar α] (limit : Nat) : Prop where
  zero_eq : (zero : α) = ofNat 0
  one_eq : (one : α) = ofNat 1
  add : ∀ m n, m + n ≤ limit → (ofNat m : α) + ofNat n = ofNat (m + n)
  start_add : ∀ n ≤ limit, (sumStart : α) + ofNat n = ofNat n
  positive : ∀ n ≤ limit, 0 < n → lt (zero : α) (ofNat n) = true
  finite : ∀ n ≤ limit, isFinite (ofNat n : α) = true

namespace CountsUpTo

variable {α : Type} [Scalar α] {limit : Nat}

theorem foldl_add (h : CountsUpTo α limit) {xs : List Nat} {n : Nat} (hsum : n + xs.sum ≤ limit) :
    (xs.map ofNat).foldl (· + ·) (ofNat n : α) = ofNat (n + xs.sum) := by
  induction xs generalizing n with
  | nil => simp
  | cons x xs ih =>
      rw [List.sum_cons, ← Nat.add_assoc] at hsum
      rw [List.map_cons, List.foldl_cons, h.add n x ((Nat.le_add_right _ _).trans hsum), ih hsum,
        List.sum_cons, Nat.add_assoc]

/-- **Sums of whole numbers** are exact, unless there is nothing to add up. -/
theorem sum_map_ofNat (h : CountsUpTo α limit) {xs : List Nat} (hne : xs ≠ [])
    (hsum : xs.sum ≤ limit) : sum (xs.map (ofNat : Nat → α)) = ofNat xs.sum := by
  cases xs with
  | nil => exact absurd rfl hne
  | cons x xs =>
      rw [List.sum_cons] at hsum
      rw [sum, List.map_cons, List.foldl_cons, h.start_add x ((Nat.le_add_right _ _).trans hsum),
        h.foldl_add hsum, List.sum_cons]

end CountsUpTo

/-- Exact numbers count without a limit. -/
theorem ExactField.countsUpTo (K : Type) [ExactField K] (limit : Nat) : CountsUpTo K limit where
  zero_eq := Nat.cast_zero.symm
  one_eq := Nat.cast_one.symm
  add m n _ := (Nat.cast_add m n).symm
  start_add n _ := zero_add (n : K)
  positive _ _ hpos := decide_eq_true (Nat.cast_pos.mpr hpos)
  finite _ _ := rfl

namespace Double

open Float.Model Float.Model.UnpackedFloat

variable {x y : Float}

/-- A double is told by what it unpacks to, since there is but one encoding of a NaN. -/
theorem ext_unpacked (h : unpacked x = unpacked y) : x = y := by
  have hpack (z : Float) : (Float.Model.pack (unpacked z)).toBits.toBitVec = z.toModel.toBits.toBitVec := by
    show UnpackedFloat.pack .binary64 (UnpackedFloat.unpack .binary64 z.toModel.toBits.toBitVec) = _
    rw [UnpackedFloat.pack_unpack]
    split
    · rename_i hnan
      rw [isNaNBits, decide_eq_true_eq] at hnan
      exact (z.toModel.valid.eq_packedNaN hnan.1 hnan.2).symm
    · rfl
  obtain ⟨⟨⟨a⟩, ha⟩⟩ := x
  obtain ⟨⟨⟨b⟩, hb⟩⟩ := y
  have hbits := hpack ⟨⟨⟨a⟩, ha⟩⟩
  rw [h, hpack] at hbits
  obtain rfl : b = a := hbits
  rfl

/-- **A double that is not zero** is told by its number. -/
theorem ext_toRat (hx : isFinite x = true) (hy : isFinite y = true) (h : toRat x = toRat y)
    (hne : toRat x ≠ 0) : x = y := by
  have hrank : rank (unpacked x) = rank (unpacked y) := by
    rcases lt_trichotomy (rank (unpacked x)) (rank (unpacked y)) with hlt | heq | hlt
    · exact absurd h (value_lt_of_rank_lt hx hy (canonical_unpacked x) (canonical_unpacked y) hlt).ne
    · exact heq
    · exact absurd h (value_lt_of_rank_lt hy hx (canonical_unpacked y) (canonical_unpacked x) hlt).ne'
  have halike : Alike (unpacked x) (unpacked y) :=
    alike_of_rank (isNaN_of_isFinite hx) (isNaN_of_isFinite hy) hrank
  rcases halike with heq | ⟨s, t, hzero, -⟩
  · exact ext_unpacked heq
  · exact absurd (by rw [toRat, hzero]; rfl) hne

/-- Whole numbers up to `2 ^ 53` are doubles. -/
theorem representable_of_le {n : Nat} (h : n ≤ 2 ^ 53) : Representable n := by
  rcases h.lt_or_eq with hlt | rfl
  · exact representable_natCast hlt
  · exact_mod_cast representable_two_pow 53

theorem isRounding_ofNat_of_le {n : Nat} (h : n ≤ 2 ^ 53) : IsRounding n (Scalar.ofNat n) := by
  refine isRounding_ofNat (le_trans ?_ (two_pow_le_largest (n := 53) (by norm_num)))
  exact_mod_cast h

theorem toRat_ofNat {n : Nat} (h : n ≤ 2 ^ 53) : toRat (Scalar.ofNat n) = n :=
  (isRounding_ofNat_of_le h).toRat_eq (representable_of_le h)

/-- **Sums that are whole numbers** up to `2 ^ 53` are exact. -/
theorem add_eq_ofNat {n : Nat} (hpos : 0 < n) (h : n ≤ 2 ^ 53) (hx : isFinite x = true)
    (hy : isFinite y = true) (hsum : toRat x + toRat y = n) : x + y = Scalar.ofNat n := by
  have hlargest : |toRat x + toRat y| ≤ largest := by
    rw [hsum, Nat.abs_cast]
    refine le_trans ?_ (two_pow_le_largest (n := 53) (by norm_num))
    exact_mod_cast h
  have hadd := isRounding_add hx hy hlargest
  rw [hsum] at hadd
  have hrat := hadd.toRat_eq (representable_of_le h)
  refine ext_toRat hadd.finite (isRounding_ofNat_of_le h).finite (hrat.trans (toRat_ofNat h).symm) ?_
  rw [hrat]
  exact Nat.cast_ne_zero.mpr hpos.ne'

/-- **Doubles count up to `2 ^ 53`.** -/
theorem countsUpTo : CountsUpTo Float (2 ^ 53) where
  zero_eq := rfl
  one_eq := rfl
  add m n h := by
    rcases Nat.eq_zero_or_pos (m + n) with hzero | hpos
    · obtain ⟨rfl, rfl⟩ := Nat.add_eq_zero_iff.mp hzero
      rfl
    · have hm : m ≤ 2 ^ 53 := (Nat.le_add_right _ _).trans h
      have hn : n ≤ 2 ^ 53 := (Nat.le_add_left _ _).trans h
      refine add_eq_ofNat hpos h (isRounding_ofNat_of_le hm).finite (isRounding_ofNat_of_le hn).finite ?_
      rw [toRat_ofNat hm, toRat_ofNat hn, Nat.cast_add]
  start_add n h := by
    rcases Nat.eq_zero_or_pos n with rfl | hpos
    · rfl
    · refine add_eq_ofNat hpos h rfl (isRounding_ofNat_of_le h).finite ?_
      rw [toRat_ofNat h, toRat_sumStart, zero_add]
  positive n h hpos := by
    rw [lt_iff_toRat rfl (isRounding_ofNat_of_le h).finite, toRat_ofNat h, toRat_zero]
    exact_mod_cast hpos
  finite n h := (isRounding_ofNat_of_le h).finite

end Double

end BlockAffinity
