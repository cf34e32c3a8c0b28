import BlockAffinity.Proofs.Number.Magnitude

/-!
# BlockAffinity.Proofs.Number.Overflow

**Sums that may overflow.** Adding doubles that are not negative gives no NaN, so the only way in which
a sum can go wrong is to become infinite, and once it is infinite it stays so. A sum that ended finite
was therefore rounded to nearest at every step (`IsDistance.isRounding_add_of_isFinite`), and it is at
least as large as each of its terms (`IsDistance.foldl_add_of_isFinite`).

It does end finite if the exact sum leaves room for one factor `1 + unitRoundoff` for each addition
(`inRange_foldl_add_of_sum`), or if all of its terms are small: a term below half the distance to the next
double is lost in rounding, so small terms of either sign do not lift a sum above a bound, however many they
are (`isFinite_foldl_add_iff`).
-/

namespace BlockAffinity.Double

open Scalar
open Float.Model Float.Model.UnpackedFloat

/-- What does not fit the encoding is packed as infinity. -/
theorem isFinite_unpack_pack_eq_false {u : UnpackedFloat} (hu : ¬Encodable u) :
    (Float.Model.pack u).unpack.isFinite = false := by
  rcases u with _ | _ | _ | ⟨sign, m, e, hm⟩
  iterate 3 exact absurd trivial hu
  have he : 971 < e := not_le.mp hu
  have hbiased : 2 ^ Format.binary64.exponentBits ≤
      (e + Format.binary64.exponentBias + (52 : Nat)).toNat + 1 := by
    simp only [Format.exponentBias]
    omega
  rw [unpack_pack]
  unfold UnpackedFloat.pack
  dsimp only
  rw [if_pos hbiased]
  cases sign <;> rfl

/-- A rounding that was packed as a finite double fits the encoding. -/
theorem Rounds.isRounding_of_isFinite {u : UnpackedFloat} {v : ℚ} {x : Float} (h : Rounds v u)
    (hx : unpacked x = (Float.Model.pack u).unpack) (hfinite : isFinite x = true) : IsRounding v x := by
  have hu : Encodable u := by
    by_contra hu
    rw [isFinite_eq, hx, isFinite_unpack_pack_eq_false hu] at hfinite
    exact Bool.false_ne_true hfinite
  rw [unpack_pack_of_canonical h.finite h.canonical hu] at hx
  refine ⟨hfinite, ?_⟩
  rw [toRat, hx]
  exact h.nearest

variable {x y : Float}

/-! ### Finite sums -/

/-- Finite or not, what is not negative stands for a number that is not negative. -/
theorem IsDistance.toRat_nonneg (h : IsDistance x) : 0 ≤ toRat x := by
  unfold IsDistance at h
  rw [toRat]
  generalize unpacked x = u at h
  rcases u with ⟨⟨⟩⟩ | _ | _ | ⟨⟨⟩, m, e, hm⟩ <;> try exact absurd h id
  iterate 2 exact le_rfl
  exact (value_positive_pos e hm).le

theorem InRange.isDistance {b : ℚ} (h : InRange b x) : IsDistance x :=
  isDistance_iff.mpr ⟨isNaN_of_isFinite h.finite, h.lt_zero⟩

/-- An infinite operand makes a sum infinite. -/
theorem isFinite_of_isFinite_add {u v : UnpackedFloat} (hu : Nonnegative u) (hv : Nonnegative v)
    (h : (Float.Model.pack (UnpackedFloat.add .binary64 u v)).unpack.isFinite = true) :
    u.isFinite = true ∧ v.isFinite = true := by
  have hinfinite : (Float.Model.pack (.infinity .positive)).unpack.isFinite = false := rfl
  rcases u with ⟨⟨⟩⟩ | _ | s | ⟨⟨⟩, m, e, hm⟩ <;> try exact absurd hu id
  · have hadd : UnpackedFloat.add .binary64 (.infinity .positive) v = .infinity .positive := by
      rcases v with ⟨⟨⟩⟩ | _ | r | ⟨⟨⟩, k, f, hk⟩ <;> first | exact absurd hv id | rfl
    rw [hadd, hinfinite] at h
    exact absurd h Bool.false_ne_true
  all_goals
    rcases v with ⟨⟨⟩⟩ | _ | r | ⟨⟨⟩, k, f, hk⟩ <;> try exact absurd hv id
    · exact absurd (hinfinite.symm.trans h) Bool.false_ne_true
    all_goals exact ⟨rfl, rfl⟩

/-- **A finite sum** of doubles that are not negative has finite operands, and was rounded. -/
theorem IsDistance.isRounding_add_of_isFinite (hx : IsDistance x) (hy : IsDistance y)
    (hfinite : isFinite (x + y) = true) :
    isFinite x = true ∧ isFinite y = true ∧ IsRounding (toRat x + toRat y) (x + y) := by
  obtain ⟨hx', hy'⟩ : isFinite x = true ∧ isFinite y = true := isFinite_of_isFinite_add hx hy hfinite
  exact ⟨hx', hy', (rounds_add hx' hy' (canonical_unpacked x)
    (canonical_unpacked y)).isRounding_of_isFinite rfl hfinite⟩

/-- **A finite running sum** went through finite sums only, and no term is greater than it. -/
theorem IsDistance.foldl_add_of_isFinite {xs : List Float} (hx : IsDistance x)
    (h : ∀ y ∈ xs, IsDistance y) (hfinite : isFinite (xs.foldl (· + ·) x) = true) :
    isFinite x = true ∧ toRat x ≤ toRat (xs.foldl (· + ·) x) ∧
      ∀ y ∈ xs, isFinite y = true ∧ toRat y ≤ toRat (xs.foldl (· + ·) x) := by
  induction xs generalizing x with
  | nil => exact ⟨hfinite, le_rfl, by simp⟩
  | cons y ys ih =>
      rw [List.forall_mem_cons] at h ⊢
      obtain ⟨hsum, hstart, hterms⟩ := ih (hx.add h.1) h.2 hfinite
      obtain ⟨hx', hy', hround⟩ := hx.isRounding_add_of_isFinite h.1 hsum
      have hleft : toRat x ≤ toRat (x + y) :=
        hround.le_toRat (representable_toRat x) (le_add_of_nonneg_right h.1.toRat_nonneg)
      have hright : toRat y ≤ toRat (x + y) :=
        hround.le_toRat (representable_toRat y) (le_add_of_nonneg_left hx.toRat_nonneg)
      exact ⟨hx', hleft.trans hstart, ⟨hy', hright.trans hstart⟩, hterms⟩

theorem isDistance_foldl_add {xs : List Float} (hx : IsDistance x) (h : ∀ y ∈ xs, IsDistance y) :
    IsDistance (xs.foldl (· + ·) x) := by
  induction xs generalizing x with
  | nil => exact hx
  | cons y ys ih =>
      rw [List.forall_mem_cons] at h
      exact ih (hx.add h.1) h.2

/-! ### Sums that have room -/

/-- **A running sum is finite** if the exact one leaves room for a factor for each addition, and it is
larger by these factors at most. -/
theorem inRange_foldl_add_of_sum {xs : List Float} (hx : InRange (2 ^ 1023) x)
    (h : ∀ y ∈ xs, InRange (2 ^ 1023) y)
    (hsum : (toRat x + (xs.map toRat).sum) * (1 + unitRoundoff) ^ xs.length < 2 ^ 1023) :
    InRange (2 ^ 1023) (xs.foldl (· + ·) x) ∧
      toRat (xs.foldl (· + ·) x) ≤
        (toRat x + (xs.map toRat).sum) * (1 + unitRoundoff) ^ xs.length := by
  induction xs generalizing x with
  | nil => exact ⟨hx, by simp⟩
  | cons y ys ih =>
      rw [List.forall_mem_cons] at h
      rw [List.map_cons, List.sum_cons, List.length_cons,
        pow_succ' (1 + unitRoundoff) ys.length] at hsum ⊢
      have hrest : 0 ≤ (ys.map toRat).sum := by
        refine List.sum_nonneg fun q hq => ?_
        obtain ⟨z, hz, rfl⟩ := List.mem_map.mp hq
        exact (h.2 z hz).nonneg
      have hstart : 0 ≤ toRat x + toRat y := add_nonneg hx.nonneg h.1.nonneg
      have hgrowth : 1 ≤ 1 + unitRoundoff := by simpa using one_le_roundings 1
      have hlimit : toRat x + toRat y < 2 ^ 1023 := by
        refine lt_of_le_of_lt ?_ hsum
        have hfactor : 1 ≤ (1 + unitRoundoff) * (1 + unitRoundoff) ^ ys.length :=
          one_le_mul_of_one_le_of_one_le hgrowth (one_le_roundings _)
        have hexact : toRat x + toRat y ≤ toRat x + (toRat y + (ys.map toRat).sum) := by linarith
        exact hexact.trans (le_mul_of_one_le_right (hstart.trans hexact) hfactor)
      obtain ⟨hrange, hle⟩ := toRat_add_le hx h.1 hlimit
      -- the rounding of the first sum takes one of the factors
      have hnext : (toRat (x + y) + (ys.map toRat).sum) * (1 + unitRoundoff) ^ ys.length ≤
          (toRat x + (toRat y + (ys.map toRat).sum)) *
            ((1 + unitRoundoff) * (1 + unitRoundoff) ^ ys.length) := by
        rw [← mul_assoc]
        refine mul_le_mul_of_nonneg_right ?_ (zero_le_one.trans (one_le_roundings _))
        have hrest' := le_mul_of_one_le_right hrest hgrowth
        linarith
      obtain ⟨hrange', hle'⟩ := ih hrange h.2 (hnext.trans_lt hsum)
      exact ⟨hrange', hle'.trans hnext⟩

/-! ### Sums with infinite terms -/

/-- The infinite double above zero. -/
def infinity : Float := Scalar.one / Scalar.zero

theorem unpacked_infinity : unpacked infinity = .infinity .positive := by rfl

/-- Nothing that is finite takes an infinite double back. -/
theorem infinity_add (hy : isFinite y = true) : infinity + y = infinity ∧ y + infinity = infinity := by
  have hpack := unpack_pack_unpacked infinity
  rw [unpacked_infinity] at hpack
  have hadd : UnpackedFloat.add .binary64 (.infinity .positive) (unpacked y) = .infinity .positive ∧
      UnpackedFloat.add .binary64 (unpacked y) (.infinity .positive) = .infinity .positive := by
    rw [isFinite_eq] at hy
    generalize unpacked y = u at hy
    rcases u with _ | _ | _ | _ <;> first | exact absurd hy Bool.false_ne_true | exact ⟨rfl, rfl⟩
  constructor <;> refine ext_unpacked ?_ <;> rw [unpacked_add, unpacked_infinity]
  · rw [hadd.1, hpack]
  · rw [hadd.2, hpack]

/-- What is closer to `2 ^ (53 + n)` than to the next double rounds down to it. -/
theorem IsRounding.le_two_pow {v : ℚ} {n : ℕ} (h : IsRounding v x) (hv : v < 2 ^ (53 + n) + 2 ^ n) :
    toRat x ≤ 2 ^ (53 + n) := by
  by_contra hgreater
  have hgap := (representable_toRat x).gap (not_le.mp hgreater)
  have hnear := h.nearest _ (representable_two_pow (53 + n))
  rw [pow_succ] at hgap
  have hpos : (0 : ℚ) < 2 ^ n := pow_pos two_pos n
  rw [abs_of_pos (by linarith)] at hnear
  rcases abs_cases ((2 : ℚ) ^ (53 + n) - v) with ⟨heq, -⟩ | ⟨heq, -⟩ <;> linarith

theorem IsRounding.neg_two_pow_le {v : ℚ} {n : ℕ} (h : IsRounding v x)
    (hv : -(2 ^ (53 + n) + 2 ^ n) < v) : -2 ^ (53 + n) ≤ toRat x := by
  by_contra hless
  have hgap := (representable_toRat x).neg.gap (n := n) (by linarith [not_le.mp hless])
  have hnear := h.nearest _ (representable_two_pow (53 + n)).neg
  rw [pow_succ] at hgap
  have hpos : (0 : ℚ) < 2 ^ n := pow_pos two_pos n
  rw [abs_of_neg (by linarith)] at hnear
  rcases abs_cases (-(2 : ℚ) ^ (53 + n) - v) with ⟨heq, -⟩ | ⟨heq, -⟩ <;> linarith

/-- Beside `2 ^ (53 + n)` a term below `2 ^ n` is lost in rounding. -/
theorem Within.add_small {n : ℕ} {b : ℚ} (hn : n ≤ 900) (hb : b < 2 ^ n)
    (hx : Within (2 ^ (53 + n)) x) (hy : Within b y) : Within (2 ^ (53 + n)) (x + y) := by
  have hexact : |toRat x + toRat y| ≤ 2 ^ (53 + n) + b :=
    (abs_add_le _ _).trans (add_le_add hx.magnitude_le hy.magnitude_le)
  have hlargest : (2 : ℚ) ^ (53 + n) + b ≤ largest := by
    have hpower : (2 : ℚ) ^ n ≤ 2 ^ (53 + n) := pow_le_pow_right₀ one_le_two (by omega)
    have htwice := pow_succ (2 : ℚ) (53 + n)
    linarith [two_pow_le_largest (n := 53 + n + 1) (by omega)]
  have hround := isRounding_add hx.finite hy.finite (hexact.trans hlargest)
  obtain ⟨hlow, hhigh⟩ := abs_le.mp hexact
  exact ⟨hround.finite, abs_le.mpr ⟨hround.neg_two_pow_le (by linarith),
    hround.le_two_pow (by linarith)⟩⟩

/-- **A running sum of small terms, some of them infinite,** is finite exactly if all of them are, however
many they are; otherwise it is infinite. -/
theorem isFinite_foldl_add_iff {n : ℕ} {b : ℚ} (hn : n ≤ 900) (hb : b < 2 ^ n) {xs : List Float}
    (hx : Within (2 ^ (53 + n)) x ∨ x = infinity) (h : ∀ y ∈ xs, Within b y ∨ y = infinity) :
    isFinite (xs.foldl (· + ·) x) = true ↔ isFinite x = true ∧ ∀ y ∈ xs, isFinite y = true := by
  have hinfinite : isFinite infinity = false := by rfl
  induction xs generalizing x with
  | nil => simp
  | cons y ys ih =>
      rw [List.forall_mem_cons] at h ⊢
      -- one addition
      have hstep : (Within (2 ^ (53 + n)) (x + y) ∨ x + y = infinity) ∧
          (isFinite (x + y) = true ↔ isFinite x = true ∧ isFinite y = true) := by
        rcases hx with hx | rfl <;> rcases h.1 with hy | rfl
        · have hsum := hx.add_small hn hb hy
          exact ⟨.inl hsum, by simp [hsum.finite, hx.finite, hy.finite]⟩
        · rw [(infinity_add hx.finite).2]
          exact ⟨.inr rfl, by simp [hinfinite]⟩
        · rw [(infinity_add hy.finite).1]
          exact ⟨.inr rfl, by simp [hinfinite]⟩
        · have hsum : infinity + infinity = infinity := by rfl
          rw [hsum]
          exact ⟨.inr rfl, by simp [hinfinite]⟩
      rw [List.foldl_cons, ← and_assoc, ← hstep.2]
      exact ih hstep.1 h.2

end BlockAffinity.Double
