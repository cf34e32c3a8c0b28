import BlockAffinity.Divergence
import BlockAffinity.Proofs.Distribution
import BlockAffinity.Proofs.Number.Logarithm

/-!
# BlockAffinity.Proofs.Divergence.Degenerate

**When a divergence is not finite**, in doubles. The mean of two probabilities is half their sum, and half
the smallest double rounds to zero. A probability that is divided by this mean gives infinity, and so do
its logarithm, its term and the whole divergence. Every other term is small: a probability is at most four
times its mean, so the logarithm of the quotient is within the exponents of doubles.

So the divergence of two distributions is finite unless they give some token the smallest double and zero
(`isFinite_jensenShannon_iff`).
-/

namespace BlockAffinity.Divergence

open Scalar Double

/-! ### Means -/

variable {a b s : Float} {v : ℚ}

theorem toRat_half : toRat (half : Float) = 1 / 2 := by
  have hunpacked : unpacked (half : Float) = .finite .positive (2 ^ 52) (-53) (by decide) := by rfl
  rw [toRat_of_unpacked hunpacked]
  norm_num

theorem isRounding_half_mul (hs : InRange 2 s) : IsRounding (toRat s / 2) (half * s) := by
  have hproduct : toRat (half : Float) * toRat s = toRat s / 2 := by
    rw [toRat_half]
    ring
  have hlargest : |toRat (half : Float) * toRat s| ≤ largest := by
    rw [hproduct]
    refine abs_le_largest_of_le (n := 1) (by norm_num) (by linarith [hs.nonneg]) ?_
    linarith [hs.le, hs.nonneg]
  rw [← hproduct]
  exact isRounding_mul (by rfl) hs.finite hlargest

/-- A power of two below a number, and above half of it. -/
theorem exists_two_zpow_le (h : smallest ≤ v) : ∃ e : ℤ, -1074 ≤ e ∧ 2 ^ e ≤ v ∧ v < 2 * 2 ^ e := by
  obtain ⟨e, hlow, hhigh⟩ := exists_mem_Ico_zpow (smallest_pos.trans_le h) one_lt_two
  rw [zpow_add_one₀ two_ne_zero, mul_comm] at hhigh
  refine ⟨e, ?_, hlow, hhigh⟩
  by_contra hless
  have hpower : (2 : ℚ) ^ (e + 1) ≤ smallest := zpow_le_zpow_right₀ one_le_two (by omega)
  rw [zpow_add_one₀ two_ne_zero, mul_comm] at hpower
  linarith

/-- A mean that does not vanish is at least a quarter of what it is the mean of. -/
theorem quarter_le_mean (hs : InRange 2 s) (h : 2 * smallest ≤ toRat s) :
    InRange 1 (half * s) ∧ toRat s ≤ 4 * toRat (half * s) := by
  have hround := isRounding_half_mul hs
  refine ⟨hround.inRange (by simpa using representable_two_pow 0) (by linarith [hs.nonneg])
    (by linarith [hs.le]), ?_⟩
  obtain ⟨e, he, hlow, hhigh⟩ := exists_two_zpow_le (v := toRat s / 2) (by linarith)
  linarith [hround.le_toRat (representable_two_zpow he) hlow]

/-! ### Terms -/

/-- What a token of probability `a` adds to a divergence, if its two probabilities sum to `s`. -/
def tokenTerm (log2 : Float → Float) (a s : Float) : Float :=
  half * @relativeTerm Float (withLog log2) a (half * s)

variable {log2 : Float → Float}

theorem tokenTerm_eq (log2 : Float → Float) (a s : Float) :
    tokenTerm log2 a s =
      half * if lt zero a then a * log2 (a / (half * s)) else zero := rfl

/-- A product with a number up to one. -/
theorem within_mul {x y : Float} {n : ℕ} (hn : n ≤ 1023) (hx : InRange 1 x) (hy : Within (2 ^ n) y) :
    Within (2 ^ n) (x * y) := by
  have hproduct : |toRat x * toRat y| ≤ 2 ^ n := by
    rw [abs_mul, abs_of_nonneg hx.nonneg]
    exact (mul_le_of_le_one_left (abs_nonneg _) hx.le).trans hy.magnitude_le
  exact (isRounding_mul hx.finite hy.finite (hproduct.trans (two_pow_le_largest hn))).within
    (representable_two_pow n) hproduct

/-- A probability divided by a mean that is not much smaller is between the smallest double and four. -/
theorem quotient_spec {m : Float} (ha : InRange 1 a) (hpos : 0 < toRat a) (hm : InRange 1 m)
    (hle : toRat a ≤ 4 * toRat m) :
    isFinite (a / m) = true ∧ smallest ≤ toRat (a / m) ∧ toRat (a / m) ≤ 2 ^ 2 := by
  have hmpos : 0 < toRat m := by linarith
  have hhigh : toRat a / toRat m ≤ 2 ^ 2 := by
    rw [div_le_iff₀ hmpos]
    linarith
  have hlow : smallest ≤ toRat a / toRat m := (smallest_le hpos).trans (le_div_self hpos.le hmpos hm.le)
  have hround := isRounding_div ha.finite hm.finite hmpos.ne'
    (abs_le_largest_of_le (by norm_num) (smallest_pos.le.trans hlow) hhigh)
  exact ⟨hround.finite, hround.le_toRat (representable_two_zpow le_rfl) hlow,
    hround.toRat_le (representable_two_pow 2) hhigh⟩

/-- **A term is small** if the mean does not vanish. -/
theorem within_tokenTerm (hlog : IsBinaryLog log2) (ha : InRange 1 a) (hs : InRange 2 s)
    (hle : toRat a ≤ toRat s) (hmean : 0 < toRat a → 2 * smallest ≤ toRat s) :
    Within (2 ^ 11) (tokenTerm log2 a s) := by
  have hhalf : InRange 1 (half : Float) := ⟨by rfl, by rw [toRat_half]; norm_num,
    by rw [toRat_half]; norm_num⟩
  rw [tokenTerm_eq]
  refine within_mul (by norm_num) hhalf ?_
  split_ifs with hpositive
  · have hpos : 0 < toRat a := by simpa using (lt_iff_toRat rfl ha.finite).mp hpositive
    obtain ⟨hrange, hquarter⟩ := quarter_le_mean hs (hmean hpos)
    obtain ⟨hfinite, hlow, hhigh⟩ := quotient_spec ha hpos hrange (hle.trans hquarter)
    have hpower : (2 : ℚ) ^ 2 ≤ 2 ^ ((1074 : ℕ) : ℤ) := by
      rw [zpow_natCast]
      exact pow_le_pow_right₀ one_le_two (by norm_num)
    refine within_mul (by norm_num) ha ?_
    exact (hlog.within (n := 1074) hfinite hlow (hhigh.trans hpower)).weaken (by norm_num)
  · exact ⟨by rfl, by rw [toRat_zero, abs_zero]; norm_num⟩

/-- The smallest positive double. -/
def smallestDouble : Float := Float.ofBits 1

theorem toRat_smallestDouble : toRat smallestDouble = smallest := by
  have hunpacked : unpacked smallestDouble = .finite .positive 1 (-1074) (by decide) := by rfl
  rw [toRat_of_unpacked hunpacked, smallest, Nat.cast_one, one_mul]

theorem eq_smallestDouble (ha : isFinite a = true) (h : toRat a = smallest) : a = smallestDouble :=
  ext_toRat ha (by rfl) (h.trans toRat_smallestDouble.symm) (h.symm ▸ smallest_pos.ne')

/-- **A term is infinite** if the smallest double is all that is there. -/
theorem tokenTerm_eq_infinity (hlog : log2 infinity = infinity) (ha : InRange 1 a) (hs : InRange 2 s)
    (ha' : toRat a = smallest) (hs' : toRat s = smallest) : tokenTerm log2 a s = infinity := by
  obtain rfl := eq_smallestDouble ha.finite ha'
  obtain rfl := eq_smallestDouble hs.finite hs'
  have hpositive : lt zero smallestDouble = true := by decide +kernel
  have hquotient : smallestDouble / (half * smallestDouble) = infinity := by rfl
  have hterm : smallestDouble * infinity = infinity := by rfl
  rw [tokenTerm_eq, if_pos hpositive, hquotient, hlog, hterm]
  rfl

/-- Two probabilities that are not the smallest double and zero add up to twice the smallest double. -/
theorem two_mul_smallest_le_add (hb : 0 ≤ toRat b) (hpos : 0 < toRat a)
    (h : ¬(toRat a = smallest ∧ toRat b = 0)) : 2 * smallest ≤ toRat a + toRat b := by
  obtain ⟨k, hk⟩ := exists_mul_smallest a
  obtain ⟨l, hl⟩ := exists_mul_smallest b
  rw [hk, hl] at h ⊢
  rw [hk] at hpos
  rw [hl] at hb
  have hk' : 0 < k := by exact_mod_cast pos_of_mul_pos_left hpos smallest_pos.le
  have hl' : 0 ≤ l := by exact_mod_cast nonneg_of_mul_nonneg_left hb smallest_pos
  have htwo : 2 ≤ k + l := by
    by_contra hless
    obtain ⟨rfl, rfl⟩ : k = 1 ∧ l = 0 := by omega
    exact h ⟨by norm_num, by norm_num⟩
  rw [← add_mul]
  exact mul_le_mul_of_nonneg_right (by exact_mod_cast htwo) smallest_pos.le

/-- **What a token adds** is small, unless its probabilities are the smallest double and zero: then it is
infinite. -/
theorem tokenTerm_cases (hlog : IsBinaryLog log2) (ha : InRange 1 a) (hb : InRange 1 b)
    (hs : IsRounding (toRat a + toRat b) s) :
    (Within (2 ^ 11) (tokenTerm log2 a s) ∨ tokenTerm log2 a s = infinity) ∧
      (isFinite (tokenTerm log2 a s) = true ↔ ¬(toRat a = smallest ∧ toRat b = 0)) := by
  have hrange : InRange 2 s := hs.inRange (by simpa using representable_two_pow 1)
    (add_nonneg ha.nonneg hb.nonneg) (by linarith [ha.le, hb.le])
  by_cases hvanish : toRat a = smallest ∧ toRat b = 0
  · have hsum : toRat s = smallest := by
      rw [hvanish.1, hvanish.2, add_zero] at hs
      exact hs.toRat_eq (representable_two_zpow le_rfl)
    have hinfinite := tokenTerm_eq_infinity hlog.log2_infinity ha hrange hvanish.1 hsum
    have hnot : isFinite infinity = false := by rfl
    refine ⟨.inr hinfinite, ?_⟩
    rw [hinfinite, hnot]
    simp [hvanish]
  · have hle : toRat a ≤ toRat s := hs.le_toRat (representable_toRat a) (by linarith [hb.nonneg])
    have htwice : Representable (2 * smallest) := by
      rw [smallest, ← zpow_one_add₀ two_ne_zero]
      exact representable_two_zpow (by norm_num)
    have hwithin := within_tokenTerm hlog ha hrange hle fun hpos =>
      hs.le_toRat htwice (two_mul_smallest_le_add hb.nonneg hpos hvanish)
    exact ⟨.inl hwithin, by simp [hwithin.finite, hvanish]⟩

/-! ### Divergences -/

variable {p q : Distribution Float}

/-- Some token has probabilities that add up to the smallest double, so that their mean is zero. -/
def MeanVanishes (p q : Distribution Float) : Prop :=
  ∃ token, toRat (p.probability token) + toRat (q.probability token) = smallest

/-- The divergence as a sum of terms. -/
theorem jensenShannon_eq_foldl (log2 : Float → Float) (p q : Distribution Float) :
    @jensenShannon Float (withLog log2) p q =
      (p.entries.map (fun entry => tokenTerm log2 entry.2 (entry.2 + q.probability entry.1)) ++
        q.entries.map fun entry => tokenTerm log2 entry.2 (p.probability entry.1 + entry.2)).foldl
          (· + ·) zero := by
  rw [List.foldl_append, List.foldl_map, List.foldl_map]
  rfl

theorem eq_smallest_of_add (ha : 0 ≤ toRat a) (hb : 0 ≤ toRat b) (h : toRat a + toRat b = smallest) :
    (toRat a = smallest ∧ toRat b = 0) ∨ (toRat b = smallest ∧ toRat a = 0) := by
  rcases ha.eq_or_lt with hzero | hpos
  · exact .inr ⟨by linarith, hzero.symm⟩
  · have hle := smallest_le hpos
    exact .inl ⟨by linarith, by linarith⟩

/-- A token whose mean vanishes is listed on one of the two sides, with the smallest double. -/
theorem meanVanishes_iff (hp : p.IsBounded) (hq : q.IsBounded) : MeanVanishes p q ↔
    (∃ entry ∈ p.entries, toRat entry.2 = smallest ∧ toRat (q.probability entry.1) = 0) ∨
      ∃ entry ∈ q.entries, toRat entry.2 = smallest ∧ toRat (p.probability entry.1) = 0 := by
  have hentry {d : Distribution Float} {token : Token} (h : toRat (d.probability token) = smallest) :
      (token, d.probability token) ∈ d.entries := by
    cases hget : d.get? token with
    | none =>
        rw [Distribution.probability, hget, Option.getD_none, toRat_zero] at h
        exact absurd h smallest_pos.ne
    | some value =>
        rw [Distribution.probability, hget, Option.getD_some]
        exact TokenMap.mem_entries_iff.mpr hget
  have hvalue {d : Distribution Float} {entry : Token × Float} (h : entry ∈ d.entries) :
      d.probability entry.1 = entry.2 := by
    rw [Distribution.probability, TokenMap.mem_entries_iff.mp h, Option.getD_some]
  constructor
  · rintro ⟨token, hsum⟩
    rcases eq_smallest_of_add (Distribution.inRange_probability hp token).nonneg
      (Distribution.inRange_probability hq token).nonneg hsum with ⟨hsmall, hzero⟩ | ⟨hsmall, hzero⟩
    · exact .inl ⟨_, hentry hsmall, hsmall, hzero⟩
    · exact .inr ⟨_, hentry hsmall, hsmall, hzero⟩
  · rintro (⟨entry, hmem, hsmall, hzero⟩ | ⟨entry, hmem, hsmall, hzero⟩) <;> refine ⟨entry.1, ?_⟩
    · rw [hvalue hmem, hsmall, hzero, add_zero]
    · rw [hvalue hmem, hsmall, hzero, zero_add]

/-- **The divergence of two distributions is finite** unless the mean of some token vanishes. -/
theorem isFinite_jensenShannon_iff (hlog : IsBinaryLog log2) (hp : p.IsBounded) (hq : q.IsBounded) :
    isFinite (@jensenShannon Float (withLog log2) p q) = true ↔ ¬MeanVanishes p q := by
  have hunit (d : Distribution Float) (hd : d.IsBounded) (entry : Token × Float)
      (h : entry ∈ d.entries) : InRange 1 entry.2 := hd _ (List.mem_map_of_mem h)
  have hsum {x y : Float} (hx : InRange 1 x) (hy : InRange 1 y) : IsRounding (toRat x + toRat y) (x + y) :=
    InRange.isRounding_add (hx.weaken (by norm_num)) (hy.weaken (by norm_num))
  have hleft (entry : Token × Float) (h : entry ∈ p.entries) :=
    tokenTerm_cases hlog (hunit p hp entry h) (Distribution.inRange_probability hq entry.1)
      (hsum (hunit p hp entry h) (Distribution.inRange_probability hq entry.1))
  have hright (entry : Token × Float) (h : entry ∈ q.entries) :=
    tokenTerm_cases hlog (hunit q hq entry h) (Distribution.inRange_probability hp entry.1)
      (add_comm (toRat entry.2) _ ▸ hsum (Distribution.inRange_probability hp entry.1) (hunit q hq entry h))
  have hstart : Within (2 ^ (53 + 12)) (zero : Float) := ⟨by rfl, by rw [toRat_zero, abs_zero]; norm_num⟩
  rw [jensenShannon_eq_foldl, isFinite_foldl_add_iff (n := 12) (b := 2 ^ 11) (by norm_num)
    (by norm_num) (.inl hstart) ?_, and_iff_right hstart.finite, meanVanishes_iff hp hq]
  · rw [List.forall_mem_append, List.forall_mem_map, List.forall_mem_map, not_or, not_exists, not_exists]
    refine and_congr (forall_congr' fun entry => ?_) (forall_congr' fun entry => ?_)
    · rw [not_and]
      exact forall_congr' fun h => (hleft entry h).2
    · rw [not_and]
      exact forall_congr' fun h => (hright entry h).2
  · simp only [List.forall_mem_append, List.forall_mem_map]
    exact ⟨fun entry h => (hleft entry h).1, fun entry h => (hright entry h).1⟩

end BlockAffinity.Divergence
