import BlockAffinity.Proofs.Linkage.Doubles
import BlockAffinity.Proofs.Linkage.RoundedMeans
import BlockAffinity.Proofs.Linkage.WardRounding

/-!
# BlockAffinity.Proofs.Linkage.WardInRange

**Ward distances over doubles that neither overflow nor vanish.** The squared distance of clusters of
`a` and `b` blocks is at most `2ab / (a + b)` times a bound of the squared distances of blocks: this
factor is just what the update multiplies by, once the term that is subtracted is left out. Over doubles
a factor for the six roundings of an update is added for each block (`wardBound`, `Run.squares_le`).

From below, a new cluster is no closer than the nearer of the two that were merged, up to a dozen
roundings, since the merged clusters were a closest pair (`Run.le_distances`). So distances away from
both ends of the range of doubles have merge distances that are finite and positive
(`Dendrogram.ward_inRange`).
-/

namespace BlockAffinity

open Scalar Double

/-! ### What the squares are bounded by -/

/-- The bound for the squared distance of clusters of `a` and `b` blocks, if `S` is one for blocks. -/
def wardBound (S : ℚ) (a b : ℕ) : ℚ := 2 * a * b / (a + b) * (S * ((1 + unitRoundoff) ^ 6) ^ (a + b))

section wardBound

variable {S : ℚ} {a b k n : ℕ}

theorem growth_pow_le_two (hn : n < 2 ^ 30) : ((1 + unitRoundoff) ^ 6) ^ n ≤ 2 := by
  rw [← pow_mul]
  exact one_add_pow_le_two unitRoundoff_pos.le (natCast_mul_unitRoundoff_lt (by omega)).le

theorem wardBound_comm (S : ℚ) (a b : ℕ) : wardBound S a b = wardBound S b a := by
  rw [wardBound, wardBound, Nat.add_comm, add_comm (a : ℚ), mul_right_comm]

/-- Without the division the bound is a product of the two sizes. -/
theorem add_mul_wardBound (ha : 0 < a) (S : ℚ) : (a + b : ℕ) * wardBound S b a =
    2 * b * a * (S * ((1 + unitRoundoff) ^ 6) ^ (b + a)) := by
  have hne : (b : ℚ) + a ≠ 0 := by positivity
  rw [wardBound]
  push_cast
  field_simp
  ring

theorem le_wardBound (hS : 0 ≤ S) (ha : 0 < a) (hb : 0 < b) : S ≤ wardBound S a b := by
  have ha' : (1 : ℚ) ≤ a := by exact_mod_cast ha
  have hb' : (1 : ℚ) ≤ b := by exact_mod_cast hb
  have hfactor : 1 ≤ 2 * (a : ℚ) * b / (a + b) := by
    rw [le_div_iff₀ (by linarith)]
    linarith [mul_le_mul_of_nonneg_left hb' (by linarith : (0 : ℚ) ≤ a),
      mul_le_mul_of_nonneg_right ha' (by linarith : (0 : ℚ) ≤ b)]
  have hgrown : S ≤ S * ((1 + unitRoundoff) ^ 6) ^ (a + b) :=
    le_mul_of_one_le_right hS (one_le_pow₀ (one_le_roundings 6))
  exact hgrown.trans (le_mul_of_one_le_left (hS.trans hgrown) hfactor)

theorem wardBound_le (hS : 0 ≤ S) (ha : 0 < a) :
    wardBound S a b ≤ 2 * a * (S * ((1 + unitRoundoff) ^ 6) ^ (a + b)) := by
  have hpos : (0 : ℚ) < a + b := by positivity
  refine mul_le_mul_of_nonneg_right ?_
    (mul_nonneg hS (pow_nonneg (zero_le_one.trans (one_le_roundings 6)) _))
  rw [div_le_iff₀ hpos]
  exact mul_le_mul_of_nonneg_left (le_add_of_nonneg_left (Nat.cast_nonneg a)) (by positivity)

/-- The two squares that an update weighs, each with its weight. -/
theorem weighted_le (hS : 0 ≤ S) (ha : 0 < a) (hb : 0 < b) (k : ℕ) :
    ((a + k : ℕ) * wardBound S k a + (b + k : ℕ) * wardBound S k b) * (1 + unitRoundoff) ^ 6 ≤
      2 * k * (a + b : ℕ) * (S * ((1 + unitRoundoff) ^ 6) ^ (k + (a + b))) := by
  have hroom : ∀ {c : ℕ}, c + 1 ≤ a + b →
      S * ((1 + unitRoundoff) ^ 6) ^ (k + c) * (1 + unitRoundoff) ^ 6 ≤
        S * ((1 + unitRoundoff) ^ 6) ^ (k + (a + b)) := by
    intro c hc
    rw [mul_assoc, ← pow_succ]
    exact mul_le_mul_of_nonneg_left (pow_le_pow_right₀ (one_le_roundings 6) (by omega)) hS
  rw [add_mul_wardBound ha, add_mul_wardBound hb]
  calc (2 * k * a * (S * ((1 + unitRoundoff) ^ 6) ^ (k + a)) +
          2 * k * b * (S * ((1 + unitRoundoff) ^ 6) ^ (k + b))) * (1 + unitRoundoff) ^ 6
      = 2 * k * a * (S * ((1 + unitRoundoff) ^ 6) ^ (k + a) * (1 + unitRoundoff) ^ 6) +
          2 * k * b * (S * ((1 + unitRoundoff) ^ 6) ^ (k + b) * (1 + unitRoundoff) ^ 6) := by ring
    _ ≤ 2 * k * a * (S * ((1 + unitRoundoff) ^ 6) ^ (k + (a + b))) +
          2 * k * b * (S * ((1 + unitRoundoff) ^ 6) ^ (k + (a + b))) :=
        add_le_add (mul_le_mul_of_nonneg_left (hroom (by omega)) (by positivity))
          (mul_le_mul_of_nonneg_left (hroom (by omega)) (by positivity))
    _ = _ := by
        push_cast
        ring

/-- There is room for the roundings of an update in the bound for a union. -/
theorem wardBound_step (hS : 0 ≤ S) (ha : 0 < a) (hb : 0 < b) (k : ℕ) :
    ((a + k : ℕ) * wardBound S k a + (b + k : ℕ) * wardBound S k b) / (a + b + k : ℕ) *
      (1 + unitRoundoff) ^ 6 ≤ wardBound S k (a + b) := by
  have hpos : (0 : ℚ) < (a + b + k : ℕ) := by exact_mod_cast (by omega : 0 < a + b + k)
  rw [div_mul_eq_mul_div, div_le_iff₀ hpos, mul_comm (wardBound S k (a + b)),
    add_mul_wardBound (a := a + b) (by omega)]
  exact weighted_le hS ha hb k

theorem two_mul_mul_le (hsize : a + b ≤ n) : 2 * (a : ℚ) * b ≤ n * n := by
  have hsum : (a : ℚ) + b ≤ n := by exact_mod_cast hsize
  calc 2 * (a : ℚ) * b ≤ (a + b) * (a + b) := by
        linarith [mul_self_nonneg (a : ℚ), mul_self_nonneg (b : ℚ)]
    _ ≤ n * n := mul_self_le_mul_self (by positivity) hsum

/-- Products of sizes that fit, with the factors for all roundings. -/
theorem mul_growth_le (hS : 0 ≤ S) (hn : n < 2 ^ 30) (hfits : n * n * S ≤ 2 ^ 1020)
    (hsize : a + b ≤ n) {e : ℕ} (he : e ≤ n) :
    2 * a * b * (S * ((1 + unitRoundoff) ^ 6) ^ e) ≤ 2 ^ 1021 := by
  have hgrowth : ((1 + unitRoundoff) ^ 6) ^ e ≤ 2 := growth_pow_le_two (by omega)
  calc 2 * (a : ℚ) * b * (S * ((1 + unitRoundoff) ^ 6) ^ e)
      ≤ n * n * (S * 2) :=
        mul_le_mul (two_mul_mul_le hsize) (mul_le_mul_of_nonneg_left hgrowth hS)
          (mul_nonneg hS (pow_nonneg (zero_le_one.trans (one_le_roundings 6)) _))
          (mul_nonneg (Nat.cast_nonneg n) (Nat.cast_nonneg n))
    _ = n * n * S * 2 := by ring
    _ ≤ 2 ^ 1020 * 2 := mul_le_mul_of_nonneg_right hfits (by norm_num)
    _ = 2 ^ 1021 := (pow_succ 2 1020).symm

end wardBound

/-! ### Runs -/

namespace Agglomeration

open Clusters

variable {m : ScoreMatrix Float} {merges : List (Merge Float)} {members : Nat → Finset Nat}
  {s : Agglomeration Float} {S : ℚ}

/-- A bound of the squared distances of blocks that leaves room for all updates. -/
structure SquaresFit (m : ScoreMatrix Float) (S : ℚ) : Prop where
  size_lt : m.size < 2 ^ 30
  entry : ∀ i j, i < j → j < m.size → SquareInRange S (m.cell i j)
  floor_le : wardFloor ≤ S
  fits : m.size * m.size * S ≤ 2 ^ 1020

theorem SquaresFit.nonneg (h : SquaresFit m S) : 0 ≤ S := wardFloor_pos.le.trans h.floor_le

theorem SquaresFit.floor_le_wardBound (h : SquaresFit m S) {a b : ℕ} (ha : 0 < a) (hb : 0 < b) :
    wardFloor ≤ wardBound S a b :=
  h.floor_le.trans (le_wardBound h.nonneg ha hb)

/-- Where all squares are within their bounds, the next update does not overflow. -/
theorem Run.wardRounds (hfit : SquaresFit m S) (h : Run .ward m merges members s)
    {a : Nat} {near : Neighbour Float} (hpair : s.closestPair? = some (a, near))
    (hsquares : s.clusters.Relates members s.clusters.distances fun A B d =>
      SquareInRange (wardBound S A.card B.card) d) {k : Nat}
    (hk : k ∈ s.clusters.others a near.slot) :
    WardRounds (s.clusters.distances.get k a) (s.clusters.distances.get k near.slot)
      (s.clusters.distances.get a near.slot) (members a).card (members near.slot).card
      (members k).card := by
  have hholds := h.sound.holds
  obtain ⟨hactive, hka, hkb⟩ := mem_others.mp hk
  obtain ⟨ha, hb, hab⟩ := h.sound.closestPair?_active hpair
  have hposa := hholds.card_pos ha
  have hposb := hholds.card_pos hb
  have hposk := hholds.card_pos hactive
  have hcard := hholds.card_add_card_le ha hb hk
  rw [Finset.card_union_of_disjoint (hholds.disjoint ha hb hab.ne)] at hcard
  have hsize := hfit.size_lt
  refine WardRounds.of_le hposa hposb hposk (by omega) (hsquares k a hactive ha hka)
    (hsquares k near.slot hactive hb hkb) (hsquares a near.slot ha hb hab.ne)
    (hfit.floor_le_wardBound hposk hposa) (hfit.floor_le_wardBound hposk hposb)
    (hfit.floor_le_wardBound hposa hposb) le_rfl ?_ ?_
  · have hnonneg : 0 ≤ (((members a).card + (members k).card : ℕ) : ℚ) *
          wardBound S (members k).card (members a).card +
        ((members near.slot).card + (members k).card : ℕ) *
          wardBound S (members k).card (members near.slot).card :=
      add_nonneg
        (mul_nonneg (Nat.cast_nonneg _)
          (wardFloor_pos.le.trans (hfit.floor_le_wardBound hposk hposa)))
        (mul_nonneg (Nat.cast_nonneg _)
          (wardFloor_pos.le.trans (hfit.floor_le_wardBound hposk hposb)))
    exact ((le_mul_of_one_le_right hnonneg (one_le_roundings 6)).trans
      (weighted_le hfit.nonneg hposa hposb _)).trans
        (mul_growth_le hfit.nonneg hsize hfit.fits (by omega) (by omega))
  · calc ((members k).card : ℚ) * wardBound S (members a).card (members near.slot).card
        ≤ (members k).card * (2 * (members a).card *
            (S * ((1 + unitRoundoff) ^ 6) ^ ((members a).card + (members near.slot).card))) :=
          mul_le_mul_of_nonneg_left (wardBound_le hfit.nonneg hposa) (Nat.cast_nonneg _)
      _ = 2 * (members k).card * (members a).card *
            (S * ((1 + unitRoundoff) ^ 6) ^ ((members a).card + (members near.slot).card)) := by
          ring
      _ ≤ 2 ^ 1021 := mul_growth_le hfit.nonneg hsize hfit.fits (by omega) (by omega)

/-- A new Ward distance in terms of the blocks of the clusters. -/
theorem Run.joinedDistance_ward (h : Run .ward m merges members s) {a : Nat}
    {near : Neighbour Float} (hpair : s.closestPair? = some (a, near)) {k : Nat}
    (hk : k ∈ s.clusters.others a near.slot) :
    s.clusters.joinedDistance .ward a near.slot k =
      wardDistance (s.clusters.distances.get k a) (s.clusters.distances.get k near.slot)
        (s.clusters.distances.get a near.slot) (members a).card (members near.slot).card
        (members k).card := by
  obtain ⟨hactive, -, -⟩ := mem_others.mp hk
  obtain ⟨ha, hb, -⟩ := h.sound.closestPair?_active hpair
  rw [joinedDistance, h.sound.holds.sizeAt_eq hactive, h.sound.holds.sizeAt_eq ha,
    h.sound.holds.sizeAt_eq hb]

/-- **Squared distances stay within their bounds.** -/
theorem Run.squares_le (hfit : SquaresFit m S) (h : Run .ward m merges members s) :
    s.clusters.Relates members s.clusters.distances fun A B d =>
      SquareInRange (wardBound S A.card B.card) d := by
  refine h.relates_distances ?_ ?_ ?_
  · intro A B d hd
    rwa [wardBound_comm]
  · intro x y hx hy hxy
    obtain ⟨hfinite, hnonneg, hsq⟩ :=
      hfit.entry _ _ (show min x y < max x y by omega) (by omega)
    refine ⟨hfinite, hnonneg, hsq.trans ?_⟩
    simpa using le_wardBound hfit.nonneg zero_lt_one zero_lt_one
  · intro merges members s a near hrun hpair hsquares k hk
    have hholds := hrun.sound.holds
    obtain ⟨hactive, hka, hkb⟩ := mem_others.mp hk
    obtain ⟨ha, hb, hab⟩ := hrun.sound.closestPair?_active hpair
    have hposa := hholds.card_pos ha
    have hposb := hholds.card_pos hb
    have hposk := hholds.card_pos hactive
    obtain ⟨hfinite, hnonneg, hsq⟩ := (hrun.wardRounds hfit hpair hsquares hk).inRange hposa hposb
      (hsquares k a hactive ha hka) (hsquares k near.slot hactive hb hkb)
      (hsquares a near.slot ha hb hab.ne).nonneg (hfit.floor_le_wardBound hposk hposa)
      (hfit.floor_le_wardBound hposk hposb) le_rfl
    rw [hrun.joinedDistance_ward hpair hk,
      Finset.card_union_of_disjoint (hholds.disjoint ha hb hab.ne)]
    exact ⟨hfinite, hnonneg, hsq.trans (wardBound_step hfit.nonneg hposa hposb _)⟩

/-- The distances that a step merges at is not above any other distance. -/
theorem Run.closest_le (hfit : SquaresFit m S) (hvalid : m.validate = .ok ())
    (h : Run .ward m merges members s) {a : Nat} {near : Neighbour Float}
    (hpair : s.closestPair? = some (a, near)) {i j : Nat} (hi : s.clusters.isActive i = true)
    (hj : s.clusters.isActive j = true) (hij : i ≠ j) :
    toRat (s.clusters.distances.get a near.slot) ≤ toRat (s.clusters.distances.get i j) := by
  have hsize : m.size < 2 ^ 64 := hfit.size_lt.trans (by norm_num)
  have hcomparable : ∀ merges members s, Run .ward m merges members s →
      s.clusters.Comparable := fun _ _ _ hrun => (hrun.measured hsize hvalid).comparable
  have hfresh : s.Fresh := h.fresh hcomparable
  have hclosest := hfresh.isClosest h.sound.anchored (hcomparable _ _ _ h) hpair
  have hsquares := h.squares_le hfit
  have hfinite := (hsquares a near.slot hclosest.left hclosest.right hclosest.ordered.ne).finite
  have hfinite' := (hsquares i j hi hj hij).finite
  rcases Nat.lt_or_gt_of_ne hij with hlt | hgt
  · exact (lt_eq_false_iff_toRat hfinite' hfinite).mp (hclosest.least i j hi hj hlt)
  · rw [h.sound.shaped.distance_comm hi hj] at hfinite' ⊢
    exact (lt_eq_false_iff_toRat hfinite' hfinite).mp (hclosest.least j i hj hi hgt)

/-- The share of a distance that the roundings of an update leave. -/
def wardShrink : ℚ := 1 - 12 * unitRoundoff

theorem wardShrink_mem : 0 ≤ wardShrink ∧ wardShrink ≤ 1 := by
  norm_num [wardShrink, unitRoundoff]

theorem half_lt_wardShrink_pow {n : ℕ} (hn : n < 2 ^ 30) : 1 / 2 < wardShrink ^ n := by
  refine half_lt_one_sub_pow (by norm_num [unitRoundoff]) ?_
  rw [← mul_assoc]
  exact_mod_cast natCast_mul_unitRoundoff_lt (k := n * 12) (by omega)

/-- What is left of a distance well above the root of the smallest double, in clusters of `n` blocks. -/
def wardLeast (n : ℕ) : ℚ := 2 ^ (-500 : ℤ) * wardShrink ^ n

theorem wardLeast_pos (n : ℕ) : 0 < wardLeast n :=
  mul_pos (two_zpow_pos _) (pow_pos (by norm_num [wardShrink, unitRoundoff]) _)

theorem wardLeast_succ (n : ℕ) : wardLeast (n + 1) = wardLeast n * wardShrink := by
  rw [wardLeast, wardLeast, pow_succ, mul_assoc]

theorem wardLeast_antitone : Antitone wardLeast := fun _ _ h =>
  mul_le_mul_of_nonneg_left (pow_le_pow_of_le_one wardShrink_mem.1 wardShrink_mem.2 h)
    (two_zpow_pos _).le

theorem wardLeast_le (n : ℕ) : wardLeast n ≤ 2 ^ (-500 : ℤ) :=
  mul_le_of_le_one_right (two_zpow_pos _).le (pow_le_one₀ wardShrink_mem.1 wardShrink_mem.2)

/-- Roundings take less than half of it. -/
theorem le_wardLeast {n : ℕ} (hn : n < 2 ^ 30) : 2 ^ (-505 : ℤ) ≤ wardLeast n := by
  calc (2 : ℚ) ^ (-505 : ℤ) ≤ 2 ^ (-500 : ℤ) * (1 / 2) := by
        rw [show (1 / 2 : ℚ) = 2 ^ (-1 : ℤ) by norm_num, ← two_zpow_add]
        exact zpow_le_zpow_right₀ (by norm_num) (by norm_num)
    _ ≤ wardLeast n := mul_le_mul_of_nonneg_left (half_lt_wardShrink_pow hn).le (two_zpow_pos _).le

/-- **Ward distances shrink by one factor for each block** at most, starting from distances of blocks
that are well above the root of the smallest double. -/
theorem Run.le_distances (hfit : SquaresFit m S) (hvalid : m.validate = .ok ())
    (hentries : ∀ i j, i < j → j < m.size → 2 ^ (-500 : ℤ) ≤ toRat (m.cell i j))
    (h : Run .ward m merges members s) :
    s.clusters.Relates members s.clusters.distances fun A B d =>
      wardLeast (A.card + B.card) ≤ toRat d := by
  refine h.relates_distances ?_ ?_ ?_
  · intro A B d hd
    rwa [Nat.add_comm]
  · intro x y hx hy hxy
    exact (wardLeast_le _).trans (hentries _ _ (show min x y < max x y by omega) (by omega))
  · intro merges members s a near hrun hpair hlow k hk
    have hholds := hrun.sound.holds
    obtain ⟨hactive, hka, hkb⟩ := mem_others.mp hk
    obtain ⟨ha, hb, hab⟩ := hrun.sound.closestPair?_active hpair
    have hposa := hholds.card_pos ha
    have hposb := hholds.card_pos hb
    have hposk := hholds.card_pos hactive
    have hcard := hholds.card_add_card_le ha hb hk
    rw [Finset.card_union_of_disjoint (hholds.disjoint ha hb hab.ne)] at hcard
    have hsquares := hrun.squares_le hfit
    -- the nearer of the two clusters is what the new distance is compared with
    obtain ⟨c, hc⟩ : ∃ c, c = min (toRat (s.clusters.distances.get k a))
      (toRat (s.clusters.distances.get k near.slot)) := ⟨_, rfl⟩
    -- together the three clusters have one block more than either two of them at least
    obtain ⟨total, htotal⟩ : ∃ total, (members k).card + ((members a).card + (members near.slot).card) =
        total + 1 := ⟨_, (Nat.sub_add_cancel (by omega)).symm⟩
    have hlowc : wardLeast total ≤ c := by
      rw [hc, le_min_iff]
      exact ⟨(wardLeast_antitone (by omega)).trans (hlow k a hactive ha hka),
        (wardLeast_antitone (by omega)).trans (hlow k near.slot hactive hb hkb)⟩
    have hsize := hfit.size_lt
    have hnew := (hrun.wardRounds hfit hpair hsquares hk).mul_le hposa hposb hposk
      ((le_wardLeast (by omega)).trans hlowc) (hc ▸ min_le_left _ _) (hc ▸ min_le_right _ _)
      (hsquares a near.slot ha hb hab.ne).nonneg (hc ▸ le_min
        (hrun.closest_le hfit hvalid hpair hactive ha hka)
        (hrun.closest_le hfit hvalid hpair hactive hb hkb))
    rw [hrun.joinedDistance_ward hpair hk,
      Finset.card_union_of_disjoint (hholds.disjoint ha hb hab.ne), htotal, wardLeast_succ]
    exact (mul_le_mul_of_nonneg_right hlowc wardShrink_mem.1).trans hnew

end Agglomeration

/-! ### Dendrograms -/

/-- **Merge distances with Ward linkage** are finite as long as the squares of the distances times the
number of pairs stay away from the largest double, and positive if no distance is so small that its
square is lost. -/
theorem Dendrogram.ward_inRange {m : ScoreMatrix Float} (hsize : m.size < 2 ^ 30)
    (hvalid : m.validate = .ok ()) {tree : Dendrogram Float}
    (htree : ofMatrix .ward m = .ok tree) {bound : ℚ}
    (hentries : ∀ i j, i < j → j < m.size → InRange bound (m.cell i j))
    (hfits : m.size * m.size * bound ^ 2 ≤ 2 ^ 1020) :
    ∀ merge ∈ tree.merges, isFinite merge.distance = true ∧
      ((∀ i j, i < j → j < m.size → 2 ^ (-500 : ℤ) ≤ toRat (m.cell i j)) →
        0 < toRat merge.distance) := by
  obtain ⟨-, -, members, s, hrun⟩ := run_of_ofMatrix htree
  have hcount : (m.size : ℚ) * m.size ≤ 2 ^ 30 * 2 ^ 30 :=
    mul_le_mul (natCast_le_two_pow hsize.le) (natCast_le_two_pow hsize.le) (Nat.cast_nonneg _)
      (by norm_num)
  have hfit : Agglomeration.SquaresFit m (max (bound ^ 2) Clusters.wardFloor) := by
    refine ⟨hsize, ?_, le_max_right _ _, ?_⟩
    · intro i j hij hj
      obtain ⟨hfinite, hnonneg, hle⟩ := hentries i j hij hj
      exact ⟨hfinite, hnonneg, (pow_le_pow_left₀ hnonneg hle 2).trans (le_max_left _ _)⟩
    · rw [mul_max_of_nonneg _ _ (mul_nonneg (Nat.cast_nonneg _) (Nat.cast_nonneg _))]
      refine max_le hfits ?_
      calc (m.size : ℚ) * m.size * Clusters.wardFloor ≤ 2 ^ 30 * 2 ^ 30 * 1 :=
            mul_le_mul hcount (zpow_le_one_of_nonpos₀ (by norm_num) (by norm_num))
              Clusters.wardFloor_pos.le (by norm_num)
        _ = 2 ^ 60 := by norm_num
        _ ≤ 2 ^ 1020 := pow_le_pow_right₀ one_le_two (by norm_num)
  intro merge hmerge
  refine ⟨?_, fun hlow => ?_⟩
  · exact hrun.forall_merges (R := fun _ _ d => isFinite d = true) (fun _ _ _ h => h)
      (fun hrun i j hi hj hij => (hrun.squares_le hfit i j hi hj hij).finite) merge hmerge
  · refine hrun.forall_merges (R := fun _ _ d => 0 < toRat d) (fun _ _ _ h => h)
      (fun hrun i j hi hj hij => ?_) merge hmerge
    exact (Agglomeration.wardLeast_pos _).trans_le (hrun.le_distances hfit hvalid hlow i j hi hj hij)

end BlockAffinity
