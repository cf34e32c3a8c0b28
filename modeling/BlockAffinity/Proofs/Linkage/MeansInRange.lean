import BlockAffinity.Proofs.Linkage.RoundedMeans

/-!
# BlockAffinity.Proofs.Linkage.MeansInRange

**Means of doubles that neither overflow nor vanish.** A matrix may hold distances so large that their
sum is infinite, and with it a mean of numbers that are all finite. As
long as the number of pairs times the largest distance stays away from the largest double, every mean
is finite, and it is positive if all distances are: a sum of `k` distances is at least `k` times the
smallest double, up to a factor for each rounding (`Run.le_sums`), and less than half of that would have
to be left for the mean to be rounded to zero (`Dendrogram.average_inRange`).
-/

namespace BlockAffinity

open Scalar Double

/-! ### Doubling -/

theorem Double.toRat_add_self {x : Float} (hx : InRange (2 ^ 1022) x) :
    isFinite (x + x) = true ∧ toRat (x + x) = 2 * toRat x := by
  have hle : toRat x + toRat x ≤ 2 ^ 1023 := by
    rw [pow_succ, mul_two]
    exact add_le_add hx.le hx.le
  have hround : IsRounding (toRat x + toRat x) (x + x) := isRounding_add hx.finite hx.finite
    (abs_le_largest_of_le le_rfl (add_nonneg hx.nonneg hx.nonneg) hle)
  obtain ⟨k, e, hk, he, hvalue⟩ := representable_toRat x
  refine ⟨hround.finite, ?_⟩
  rw [two_mul]
  refine hround.toRat_eq ⟨k, e + 1, hk, by omega, ?_⟩
  rw [hvalue, two_zpow_add, zpow_one]
  ring

/-! ### Lower bounds of the sums -/

/-- The rounding of a union is allowed for in its lower bound. -/
theorem sumBound_le_add {low shrink : ℚ} {a b k : ℕ} (hlow : 0 ≤ low) (hshrink : 0 ≤ shrink)
    (hshrink' : shrink ≤ 1) (ha : 0 < a) (hb : 0 < b) :
    sumBound low shrink k (a + b) ≤
      (sumBound low shrink k a + sumBound low shrink k b) * shrink := by
  have hroom : ∀ {c : ℕ}, c + 1 ≤ a + b →
      low * shrink ^ (k + (a + b)) ≤ low * shrink ^ (k + c) * shrink := by
    intro c hc
    rw [mul_assoc, ← pow_succ]
    exact mul_le_mul_of_nonneg_left (pow_le_pow_of_le_one hshrink hshrink' (by omega)) hlow
  calc sumBound low shrink k (a + b)
      = k * a * (low * shrink ^ (k + (a + b))) + k * b * (low * shrink ^ (k + (a + b))) := by
        rw [sumBound]
        push_cast
        ring
    _ ≤ k * a * (low * shrink ^ (k + a) * shrink) + k * b * (low * shrink ^ (k + b) * shrink) :=
        add_le_add (mul_le_mul_of_nonneg_left (hroom (by omega)) (by positivity))
          (mul_le_mul_of_nonneg_left (hroom (by omega)) (by positivity))
    _ = (sumBound low shrink k a + sumBound low shrink k b) * shrink := by
        rw [sumBound, sumBound]
        ring

theorem one_sub_unitRoundoff_mem : 0 ≤ 1 - unitRoundoff ∧ 1 - unitRoundoff ≤ 1 := by
  norm_num [unitRoundoff]

/-- **The mean of positive distances is positive**, as long as there are not so many of them that
roundings add up to half of the smallest double. -/
theorem toRat_div_ofNat_pos {a b : ℕ} {sum : Float} (ha : 0 < a) (hb : 0 < b)
    (hcount : a * b ≤ 2 ^ 128) (hsize : (a + b + 1 : ℕ) * unitRoundoff < 1 / 2)
    (hfinite : isFinite sum = true)
    (hsum : sumBound smallest (1 - unitRoundoff) a b ≤ toRat sum) :
    0 < toRat (sum / ofNat (a * b)) := by
  obtain ⟨hshrink, hshrink'⟩ := one_sub_unitRoundoff_mem
  have hone : (1 : ℚ) ≤ (a * b : ℕ) := by exact_mod_cast Nat.mul_pos ha hb
  have hconverted := isRounding_ofNat
    ((natCast_le_two_pow hcount).trans (two_pow_le_largest (by norm_num)))
  have hcountLow : 1 ≤ toRat (ofNat (a * b) : Float) :=
    hconverted.le_toRat (by simpa using representable_two_pow 0) hone
  have hcountHigh : toRat (ofNat (a * b) : Float) ≤ (a * b : ℕ) * (1 + unitRoundoff) :=
    hconverted.toRat_le_mul
      ((zpow_le_one_of_nonpos₀ (by norm_num) (by norm_num)).trans hone) le_rfl
  have hpos : 0 < toRat (ofNat (a * b) : Float) := zero_lt_one.trans_le hcountLow
  have hnonneg : 0 ≤ toRat sum := by
    refine le_trans ?_ hsum
    exact mul_nonneg (by positivity) (mul_nonneg smallest_pos.le (pow_nonneg hshrink _))
  have hround := isRounding_div hfinite hconverted.finite hpos.ne' (by
    rw [abs_of_nonneg (div_nonneg hnonneg hpos.le)]
    exact (div_le_self hnonneg hcountLow).trans ((le_abs_self _).trans (abs_toRat_le_largest sum)))
  refine hround.toRat_pos ?_
  -- one more factor makes up for what the count gains when it is converted
  have hquotient : smallest * (1 - unitRoundoff) ^ (a + b + 1) ≤
      toRat sum / toRat (ofNat (a * b) : Float) := by
    rw [le_div_iff₀ hpos]
    have hlow : 0 ≤ smallest * (1 - unitRoundoff) ^ (a + b) :=
      mul_nonneg smallest_pos.le (pow_nonneg hshrink _)
    calc smallest * (1 - unitRoundoff) ^ (a + b + 1) * toRat (ofNat (a * b) : Float)
        ≤ smallest * (1 - unitRoundoff) ^ (a + b + 1) * ((a * b : ℕ) * (1 + unitRoundoff)) :=
          mul_le_mul_of_nonneg_left hcountHigh
            (mul_nonneg smallest_pos.le (pow_nonneg hshrink _))
      _ = (a * b : ℕ) * (smallest * (1 - unitRoundoff) ^ (a + b)) * (1 - unitRoundoff ^ 2) := by ring
      _ ≤ (a * b : ℕ) * (smallest * (1 - unitRoundoff) ^ (a + b)) :=
          mul_le_of_le_one_right (mul_nonneg (by positivity) hlow)
            (by linarith [sq_nonneg unitRoundoff])
      _ ≤ toRat sum := by
          rw [Nat.cast_mul]
          exact hsum
  have hhalf := half_lt_one_sub_pow (by norm_num [unitRoundoff]) hsize
  calc smallest / 2 = smallest * (1 / 2) := by ring
    _ < smallest * (1 - unitRoundoff) ^ (a + b + 1) := mul_lt_mul_of_pos_left hhalf smallest_pos
    _ ≤ _ := hquotient

/-! ### Runs -/

namespace Agglomeration

variable {m : ScoreMatrix Float} {merges : List (Merge Float)} {members : Nat → Finset Nat}
  {s : Agglomeration Float} {low : ℚ} {high : Float}

/-- **A new sum** is at least the bound for the union of the two clusters that are merged. -/
theorem Run.le_joinedSum
    (hfit : MeansFit m (InRange (2 ^ 1023)) (2 ^ 1023) (1 + unitRoundoff) low high)
    (h : Run .average m merges members s) {a : Nat} {near : Neighbour Float}
    (hpair : s.closestPair? = some (a, near))
    (hsums : s.clusters.Relates members s.clusters.sums fun A B sum =>
      sumBound smallest (1 - unitRoundoff) A.card B.card ≤ toRat sum) {k : Nat}
    (hk : k ∈ s.clusters.others a near.slot) :
    sumBound smallest (1 - unitRoundoff) (members k).card (members a ∪ members near.slot).card ≤
      toRat (s.clusters.joinedSum a near.slot k) := by
  have hholds := h.sound.holds
  obtain ⟨hactive, hka, hkb⟩ := Clusters.mem_others.mp hk
  obtain ⟨ha, hb, hab⟩ := h.sound.closestPair?_active hpair
  obtain ⟨hshrink, hshrink'⟩ := one_sub_unitRoundoff_mem
  have hupper := h.sums_le hfit
  rw [Finset.card_union_of_disjoint (hholds.disjoint ha hb hab.ne)]
  calc sumBound smallest (1 - unitRoundoff) (members k).card
          ((members a).card + (members near.slot).card)
      ≤ (sumBound smallest (1 - unitRoundoff) (members k).card (members a).card +
          sumBound smallest (1 - unitRoundoff) (members k).card (members near.slot).card) *
          (1 - unitRoundoff) :=
        sumBound_le_add smallest_pos.le hshrink hshrink' (hholds.card_pos ha) (hholds.card_pos hb)
    _ ≤ (toRat (s.clusters.sums.get k a) + toRat (s.clusters.sums.get k near.slot)) *
          (1 - unitRoundoff) :=
        mul_le_mul_of_nonneg_right
          (add_le_add (hsums k a hactive ha hka) (hsums k near.slot hactive hb hkb)) hshrink
    _ ≤ toRat (s.clusters.joinedSum a near.slot k) :=
        mul_le_toRat_add (hupper k a hactive ha hka).1 (hupper k near.slot hactive hb hkb).1
          (h.add_sums_lt hfit hpair hupper hk)

/-- **Sums of positive distances** are at least as many smallest doubles, less a factor for each block. -/
theorem Run.le_sums
    (hfit : MeansFit m (InRange (2 ^ 1023)) (2 ^ 1023) (1 + unitRoundoff) low high)
    (hpos : ∀ i j, i < j → j < m.size → 0 < toRat (m.cell i j))
    (h : Run .average m merges members s) :
    s.clusters.Relates members s.clusters.sums fun A B sum =>
      sumBound smallest (1 - unitRoundoff) A.card B.card ≤ toRat sum := by
  refine h.relates_sums ?_ ?_ fun hrun hpair hsums k hk => hrun.le_joinedSum hfit hpair hsums hk
  · intro A B sum hsum
    rwa [sumBound_comm]
  · intro x y hx hy hxy
    obtain ⟨hshrink, hshrink'⟩ := one_sub_unitRoundoff_mem
    have hentry := smallest_le (hpos _ _ (show min x y < max x y by omega) (by omega))
    refine le_trans ?_ hentry
    rw [sumBound, Finset.card_singleton, Finset.card_singleton, Nat.cast_one, one_mul, one_mul]
    exact mul_le_of_le_one_right smallest_pos.le (pow_le_one₀ hshrink hshrink')

/-- **Means of positive distances are positive.** -/
theorem Run.distances_pos
    (hfit : MeansFit m (InRange (2 ^ 1023)) (2 ^ 1023) (1 + unitRoundoff) low high)
    (hsize : m.size < 2 ^ 30) (hpos : ∀ i j, i < j → j < m.size → 0 < toRat (m.cell i j))
    (h : Run .average m merges members s) :
    s.clusters.Relates members s.clusters.distances fun _ _ distance => 0 < toRat distance := by
  refine h.relates_distances (fun _ _ _ hlt => hlt) ?_ ?_
  · intro x y hx hy hxy
    exact hpos _ _ (by omega) (by omega)
  · intro merges members s a near hrun hpair _ k hk
    have hholds := hrun.sound.holds
    obtain ⟨hactive, -, -⟩ := Clusters.mem_others.mp hk
    obtain ⟨ha, hb, -⟩ := hrun.sound.closestPair?_active hpair
    have hcard := hholds.card_add_card_le ha hb hk
    rw [hrun.joinedDistance_average hpair hk]
    have hfinite := (hrun.joinedSum_le hfit hpair (hrun.sums_le hfit) hk).1.finite
    refine toRat_div_ofNat_pos (hholds.card_pos hactive)
      (Finset.card_pos.mpr ⟨a, Finset.mem_union_left _ (hholds.first_mem ha)⟩) ?_ ?_ hfinite
      (hrun.le_joinedSum hfit hpair (hrun.le_sums hfit hpos) hk)
    · calc (members k).card * (members a ∪ members near.slot).card
          ≤ 2 ^ 30 * 2 ^ 30 := Nat.mul_le_mul (by omega) (by omega)
        _ ≤ 2 ^ 128 := by norm_num
    · exact natCast_mul_unitRoundoff_lt (by omega)

end Agglomeration

/-! ### Dendrograms -/

/-- A bound of the distances that leaves room for all sums, with its double for the means. -/
theorem ScoreMatrix.meansFit_of_bound {m : ScoreMatrix Float} (hsize : m.size < 2 ^ 30)
    (hsome : 1 < m.size) {bound : Float}
    (hentries : ∀ i j, i < j → j < m.size → InRange (toRat bound) (m.cell i j))
    (hfinite : isFinite bound = true) (hfits : m.size * m.size * toRat bound ≤ 2 ^ 1021) :
    MeansFit m (InRange (2 ^ 1023)) (2 ^ 1023) (1 + unitRoundoff) (toRat bound)
      (bound + bound) := by
  have hnonneg : 0 ≤ toRat bound := (hentries 0 1 zero_lt_one hsome).bound_nonneg
  have hlimit : toRat bound ≤ 2 ^ 1022 :=
    (le_mul_size (by omega) hnonneg).trans
      (hfits.trans (pow_le_pow_right₀ one_le_two (by norm_num)))
  obtain ⟨hdouble, hvalue⟩ := toRat_add_self ⟨hfinite, hnonneg, hlimit⟩
  refine meansFit_doubles (by omega) hentries hsome hdouble ?_ ?_
  · have hcount := natCast_mul_unitRoundoff_lt (k := m.size) (by omega)
    rw [hvalue, mul_comm]
    exact mul_le_mul_of_nonneg_right (one_add_pow_le_two unitRoundoff_pos.le hcount.le) hnonneg
  · rw [hvalue]
    calc (m.size : ℚ) * m.size * (2 * toRat bound) = 2 * (m.size * m.size * toRat bound) := by ring
      _ ≤ 2 * 2 ^ 1021 := mul_le_mul_of_nonneg_left hfits (by norm_num)
      _ = 2 ^ 1022 := (pow_succ' 2 1021).symm
      _ < 2 ^ 1023 := pow_lt_pow_right₀ one_lt_two (by norm_num)

/-- **Merge distances with average linkage** are finite as long as the number of pairs times a bound of
the distances stays away from the largest double, and positive if all distances are. -/
theorem Dendrogram.average_inRange {m : ScoreMatrix Float} (hsize : m.size < 2 ^ 30)
    {tree : Dendrogram Float} (htree : ofMatrix .average m = .ok tree) {bound : Float}
    (hentries : ∀ i j, i < j → j < m.size → InRange (toRat bound) (m.cell i j))
    (hfinite : isFinite bound = true) (hfits : m.size * m.size * toRat bound ≤ 2 ^ 1021) :
    ∀ merge ∈ tree.merges, isFinite merge.distance = true ∧
      ((∀ i j, i < j → j < m.size → 0 < toRat (m.cell i j)) → 0 < toRat merge.distance) := by
  obtain ⟨-, hlength, members, s, hrun⟩ := run_of_ofMatrix htree
  intro merge hmerge
  have hsome := List.length_pos_of_mem hmerge
  have hfit := m.meansFit_of_bound hsize (by omega) hentries hfinite hfits
  refine ⟨?_, fun hpos => ?_⟩
  · exact (hrun.forall_merges (fun _ _ _ hle => hle) (fun hrun => hrun.distances_le hfit) merge
      hmerge).1
  · exact hrun.forall_merges (fun _ _ _ hlt => hlt)
      (fun hrun => hrun.distances_pos hfit hsize hpos) merge hmerge

end BlockAffinity
