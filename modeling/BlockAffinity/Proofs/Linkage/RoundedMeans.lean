import BlockAffinity.Proofs.Linkage.Cut
import BlockAffinity.Proofs.Linkage.Doubles
import BlockAffinity.Proofs.Linkage.Members
import BlockAffinity.Proofs.Number.RelativeError

/-!
# BlockAffinity.Proofs.Linkage.RoundedMeans

**How far a mean of doubles exceeds what it is a mean of.** Average linkage divides a running sum of
distances by their number, and over doubles this sum is rounded. The mean of numbers at most `low`
can then be larger than `low`: four blocks that are all 0.1 apart are not one cluster at the
threshold 0.1 (`Dendrogram.not_forall_single_at_bound`).

The sum for two clusters has been rounded at most as often as they have blocks, so it exceeds the
exact sum by one factor for each block (`sumBound`, `Run.sums_le`). A threshold that leaves room for
these factors joins all blocks, and so does `low` itself where sums are not rounded, as for distances
on a common grid (`Dendrogram.cut_average_of_le`).
-/

namespace BlockAffinity

open Scalar Double

/-! ### What the sums are bounded by -/

/-- The bound for the sum of `a * b` distances of at most `low`: a factor for each block of the two
clusters. -/
def sumBound (low growth : ℚ) (a b : ℕ) : ℚ := a * b * (low * growth ^ (a + b))

section sumBound

variable {low growth : ℚ} {a b k : ℕ}

theorem sumBound_comm (low growth : ℚ) (a b : ℕ) :
    sumBound low growth a b = sumBound low growth b a := by
  rw [sumBound, sumBound, mul_comm (a : ℚ), Nat.add_comm]

/-- There is room for one more rounding in the bound for a union. -/
theorem sumBound_add_le (hlow : 0 ≤ low) (hgrowth : 1 ≤ growth) (ha : 0 < a) (hb : 0 < b) :
    (sumBound low growth k a + sumBound low growth k b) * growth ≤
      sumBound low growth k (a + b) := by
  have hroom : ∀ {c : ℕ}, c + 1 ≤ a + b →
      low * growth ^ (k + c) * growth ≤ low * growth ^ (k + (a + b)) := by
    intro c hc
    rw [mul_assoc, ← pow_succ]
    exact mul_le_mul_of_nonneg_left (pow_le_pow_right₀ hgrowth (by omega)) hlow
  calc (sumBound low growth k a + sumBound low growth k b) * growth
      = k * a * (low * growth ^ (k + a) * growth) +
          k * b * (low * growth ^ (k + b) * growth) := by
        rw [sumBound, sumBound]
        ring
    _ ≤ k * a * (low * growth ^ (k + (a + b))) + k * b * (low * growth ^ (k + (a + b))) :=
        add_le_add (mul_le_mul_of_nonneg_left (hroom (by omega)) (by positivity))
          (mul_le_mul_of_nonneg_left (hroom (by omega)) (by positivity))
    _ = sumBound low growth k (a + b) := by
        rw [sumBound]
        push_cast
        ring

end sumBound

/-- The sum for two clusters is a number of the arithmetic and within its bound. The square leaves
room for the division. -/
def SumFits (G : Float → Prop) (growth low : ℚ) (A B : Finset Nat) (sum : Float) : Prop :=
  G sum ∧ toRat sum * growth ^ 2 ≤ sumBound low growth A.card B.card

/-! ### Runs -/

/-- An arithmetic in which the sums of a matrix with entries up to `low` fit, and a `high` that leaves
room for the rounding of its means. -/
structure MeansFit (m : ScoreMatrix Float) (G : Float → Prop) (limit growth low : ℚ)
    (high : Float) : Prop where
  adds : AddsWithin G limit growth (m.size * m.size)
  entry : ∀ i j, i < j → j < m.size → G (m.cell i j) ∧ toRat (m.cell i j) ≤ low
  low_nonneg : 0 ≤ low
  finite : isFinite high = true
  grown : low * growth ^ m.size ≤ toRat high
  fits : m.size * m.size * toRat high < limit

namespace MeansFit

variable {m : ScoreMatrix Float} {G : Float → Prop} {limit growth low : ℚ} {high : Float} {x y : Nat}

theorem low_le (h : MeansFit m G limit growth low high) : low ≤ toRat high :=
  (le_mul_of_one_le_right h.low_nonneg (one_le_pow₀ h.adds.one_le)).trans h.grown

theorem high_nonneg (h : MeansFit m G limit growth low high) : 0 ≤ toRat high :=
  h.low_nonneg.trans h.low_le

theorem pairDistance (h : MeansFit m G limit growth low high) (hx : x < m.size) (hy : y < m.size)
    (hxy : x ≠ y) : G (m.pairDistance x y) ∧ toRat (m.pairDistance x y) ≤ low :=
  h.entry _ _ (by omega) (by omega)

theorem sumBound_le (h : MeansFit m G limit growth low high) {a b : ℕ} (hsize : a + b ≤ m.size) :
    sumBound low growth a b ≤ a * b * toRat high := by
  refine mul_le_mul_of_nonneg_left (le_trans ?_ h.grown) (by positivity)
  exact mul_le_mul_of_nonneg_left (pow_le_pow_right₀ h.adds.one_le hsize) h.low_nonneg

theorem sumBound_lt (h : MeansFit m G limit growth low high) {a b : ℕ} (hsize : a + b ≤ m.size) :
    sumBound low growth a b < limit := by
  have hcount : (a : ℚ) * b ≤ m.size * m.size := by
    exact_mod_cast Nat.mul_le_mul (by omega : a ≤ m.size) (by omega : b ≤ m.size)
  exact (h.sumBound_le hsize).trans_lt
    ((mul_le_mul_of_nonneg_right hcount h.high_nonneg).trans_lt h.fits)

/-- A mean of sums within their bound stays at or below `high`. -/
theorem div_ofNat (h : MeansFit m G limit growth low high) {A B : Finset Nat} {sum : Float}
    (hA : 0 < A.card) (hB : 0 < B.card) (hsize : A.card + B.card ≤ m.size)
    (hsum : SumFits G growth low A B sum) :
    isFinite (sum / ofNat (A.card * B.card)) = true ∧
      toRat (sum / ofNat (A.card * B.card)) ≤ toRat high := by
  obtain ⟨hG, hsum⟩ := hsum
  have hcount : 0 < A.card * B.card := Nat.mul_pos hA hB
  obtain ⟨hfinite, hconverted⟩ := h.adds.ofNat hcount
    (Nat.mul_le_mul (by omega : A.card ≤ m.size) (by omega : B.card ≤ m.size))
  have hsquare : 0 < growth ^ 2 := pow_pos (zero_lt_one.trans_le h.adds.one_le) 2
  have hpos : 0 < toRat (ofNat (A.card * B.card) : Float) := by
    have hcount' : (0 : ℚ) < (A.card * B.card : ℕ) := by exact_mod_cast hcount
    exact (mul_pos_iff_of_pos_right hsquare).mp (hcount'.trans_le hconverted)
  -- the square makes up for what the count loses when it is converted
  have hle : toRat sum ≤ toRat high * toRat (ofNat (A.card * B.card) : Float) := by
    refine le_of_mul_le_mul_right ?_ hsquare
    calc toRat sum * growth ^ 2 ≤ A.card * B.card * toRat high := hsum.trans (h.sumBound_le hsize)
      _ ≤ toRat (ofNat (A.card * B.card) : Float) * growth ^ 2 * toRat high := by
          refine mul_le_mul_of_nonneg_right ?_ h.high_nonneg
          exact_mod_cast hconverted
      _ = toRat high * toRat (ofNat (A.card * B.card) : Float) * growth ^ 2 := by ring
  have hquotient : toRat sum / toRat (ofNat (A.card * B.card) : Float) ≤ toRat high :=
    (div_le_iff₀ hpos).mpr hle
  have hrange := h.adds.inRange hG
  have hround := isRounding_div hrange.finite hfinite hpos.ne' (by
    rw [abs_of_nonneg (div_nonneg hrange.nonneg hpos.le)]
    exact hquotient.trans ((le_abs_self _).trans (abs_toRat_le_largest high)))
  exact ⟨hround.finite, hround.toRat_le (representable_toRat high) hquotient⟩

end MeansFit

/-- The blocks of a slot beside those of a new cluster are not more than all blocks. -/
theorem Clusters.Holds.card_add_card_le {α : Type} {s : Clusters α} {n a b k : Nat}
    {members : Nat → Finset Nat} (h : s.Holds n members) (ha : s.isActive a = true)
    (hb : s.isActive b = true) (hk : k ∈ s.others a b) :
    (members k).card + (members a ∪ members b).card ≤ n := by
  obtain ⟨hactive, hka, hkb⟩ := mem_others.mp hk
  have hdisjoint : Disjoint (members k) (members a ∪ members b) :=
    Finset.disjoint_union_right.mpr ⟨h.disjoint hactive ha hka, h.disjoint hactive hb hkb⟩
  rw [← Finset.card_union_of_disjoint hdisjoint, ← Finset.card_range n]
  refine Finset.card_le_card fun x hx => Finset.mem_range.mpr ?_
  simp only [Finset.mem_union] at hx
  rcases hx with hx | hx | hx
  · exact h.mem_lt hactive hx
  · exact h.mem_lt ha hx
  · exact h.mem_lt hb hx

namespace Agglomeration

variable {m : ScoreMatrix Float} {merges : List (Merge Float)} {members : Nat → Finset Nat}
  {s : Agglomeration Float} {G : Float → Prop} {limit growth low : ℚ} {high : Float}

/-- The two sums that are added up leave room in the bound for the union. -/
theorem Run.add_sums_le (hfit : MeansFit m G limit growth low high)
    (h : Run .average m merges members s) {a : Nat} {near : Neighbour Float}
    (hpair : s.closestPair? = some (a, near))
    (hsums : s.clusters.Relates members s.clusters.sums (SumFits G growth low)) {k : Nat}
    (hk : k ∈ s.clusters.others a near.slot) :
    (toRat (s.clusters.sums.get k a) + toRat (s.clusters.sums.get k near.slot)) * growth ^ 3 ≤
      sumBound low growth (members k).card (members a ∪ members near.slot).card := by
  have hholds := h.sound.holds
  obtain ⟨hactive, hka, hkb⟩ := Clusters.mem_others.mp hk
  obtain ⟨ha, hb, hab⟩ := h.sound.closestPair?_active hpair
  obtain ⟨-, hsuma⟩ := hsums k a hactive ha hka
  obtain ⟨-, hsumb⟩ := hsums k near.slot hactive hb hkb
  have hgrowth := hfit.adds.one_le
  rw [Finset.card_union_of_disjoint (hholds.disjoint ha hb hab.ne), pow_succ, ← mul_assoc, add_mul]
  refine le_trans (mul_le_mul_of_nonneg_right (add_le_add hsuma hsumb) (by linarith)) ?_
  exact sumBound_add_le hfit.low_nonneg hgrowth (hholds.card_pos ha) (hholds.card_pos hb)

/-- They do not add up to more than the arithmetic can hold. -/
theorem Run.add_sums_lt (hfit : MeansFit m G limit growth low high)
    (h : Run .average m merges members s) {a : Nat} {near : Neighbour Float}
    (hpair : s.closestPair? = some (a, near))
    (hsums : s.clusters.Relates members s.clusters.sums (SumFits G growth low)) {k : Nat}
    (hk : k ∈ s.clusters.others a near.slot) :
    toRat (s.clusters.sums.get k a) + toRat (s.clusters.sums.get k near.slot) < limit := by
  obtain ⟨hactive, hka, hkb⟩ := Clusters.mem_others.mp hk
  obtain ⟨ha, hb, -⟩ := h.sound.closestPair?_active hpair
  have hnonneg := add_nonneg (hfit.adds.inRange (hsums k a hactive ha hka).1).nonneg
    (hfit.adds.inRange (hsums k near.slot hactive hb hkb).1).nonneg
  exact (le_mul_of_one_le_right hnonneg (one_le_pow₀ hfit.adds.one_le)).trans_lt
    ((h.add_sums_le hfit hpair hsums hk).trans_lt
      (hfit.sumBound_lt (h.sound.holds.card_add_card_le ha hb hk)))

/-- **A new sum** has the bound for the union of the two clusters that are merged. -/
theorem Run.joinedSum_le (hfit : MeansFit m G limit growth low high)
    (h : Run .average m merges members s) {a : Nat} {near : Neighbour Float}
    (hpair : s.closestPair? = some (a, near))
    (hsums : s.clusters.Relates members s.clusters.sums (SumFits G growth low)) {k : Nat}
    (hk : k ∈ s.clusters.others a near.slot) :
    SumFits G growth low (members k) (members a ∪ members near.slot)
      (s.clusters.joinedSum a near.slot k) := by
  obtain ⟨hactive, hka, hkb⟩ := Clusters.mem_others.mp hk
  obtain ⟨ha, hb, -⟩ := h.sound.closestPair?_active hpair
  obtain ⟨hG, hsum⟩ := hfit.adds.add (hsums k a hactive ha hka).1 (hsums k near.slot hactive hb hkb).1
    (h.add_sums_lt hfit hpair hsums hk)
  refine ⟨hG, ?_⟩
  calc toRat (s.clusters.joinedSum a near.slot k) * growth ^ 2
      ≤ (toRat (s.clusters.sums.get k a) + toRat (s.clusters.sums.get k near.slot)) * growth *
          growth ^ 2 := mul_le_mul_of_nonneg_right hsum (sq_nonneg growth)
    _ = (toRat (s.clusters.sums.get k a) + toRat (s.clusters.sums.get k near.slot)) *
          growth ^ 3 := by ring
    _ ≤ _ := h.add_sums_le hfit hpair hsums hk

/-- **Sums grow by one factor for each block.** -/
theorem Run.sums_le (hfit : MeansFit m G limit growth low high)
    (h : Run .average m merges members s) :
    s.clusters.Relates members s.clusters.sums (SumFits G growth low) := by
  refine h.relates_sums ?_ ?_ fun hrun hpair hsums k hk => hrun.joinedSum_le hfit hpair hsums hk
  · intro A B sum hsum
    rwa [SumFits, sumBound_comm]
  · intro x y hx hy hxy
    obtain ⟨hG, hle⟩ := hfit.pairDistance hx hy hxy
    refine ⟨hG, ?_⟩
    rw [sumBound, Finset.card_singleton, Finset.card_singleton, Nat.cast_one, one_mul, one_mul]
    exact mul_le_mul_of_nonneg_right hle (sq_nonneg growth)

/-- A new mean distance in terms of the blocks of the clusters. -/
theorem Run.joinedDistance_average (h : Run .average m merges members s) {a : Nat}
    {near : Neighbour Float} (hpair : s.closestPair? = some (a, near)) {k : Nat}
    (hk : k ∈ s.clusters.others a near.slot) :
    s.clusters.joinedDistance .average a near.slot k = s.clusters.joinedSum a near.slot k /
      ofNat ((members k).card * (members a ∪ members near.slot).card) := by
  obtain ⟨hactive, -, -⟩ := Clusters.mem_others.mp hk
  obtain ⟨ha, hb, hab⟩ := h.sound.closestPair?_active hpair
  rw [Clusters.joinedDistance, h.sound.holds.sizeAt_eq hactive, h.sound.holds.sizeAt_eq ha,
    h.sound.holds.sizeAt_eq hb, Finset.card_union_of_disjoint (h.sound.holds.disjoint ha hb hab.ne)]

/-- **Means stay at or below a bound** that leaves room for the rounding of the sums. -/
theorem Run.distances_le (hfit : MeansFit m G limit growth low high)
    (h : Run .average m merges members s) :
    s.clusters.Relates members s.clusters.distances fun _ _ distance =>
      isFinite distance = true ∧ toRat distance ≤ toRat high := by
  refine h.relates_distances (fun _ _ _ hle => hle) ?_ ?_
  · intro x y hx hy hxy
    obtain ⟨hG, hle⟩ := hfit.pairDistance hx hy hxy
    exact ⟨(hfit.adds.inRange hG).finite, hle.trans hfit.low_le⟩
  · intro merges members s a near hrun hpair _ k hk
    have hholds := hrun.sound.holds
    obtain ⟨hactive, -, -⟩ := Clusters.mem_others.mp hk
    obtain ⟨ha, hb, -⟩ := hrun.sound.closestPair?_active hpair
    have hsum := hrun.joinedSum_le hfit hpair (hrun.sums_le hfit) hk
    rw [hrun.joinedDistance_average hpair hk]
    exact hfit.div_ofNat (hholds.card_pos hactive)
      (Finset.card_pos.mpr ⟨a, Finset.mem_union_left _ (hholds.first_mem ha)⟩)
      (hholds.card_add_card_le ha hb hk) hsum

end Agglomeration

/-! ### Cuts -/

section cuts

variable {m : ScoreMatrix Float} {G : Float → Prop} {limit growth : ℚ} {low high : Float}

/-- A threshold that leaves room for the rounding of the means joins all blocks. A single block has
no distances that could ask for it. -/
theorem Dendrogram.cut_of_meansFit {tree : Dendrogram Float} (htree : ofMatrix .average m = .ok tree)
    (hpos : 0 < m.size) (hids : m.ids.Nodup) (hhigh : isFinite high = true)
    (hfit : 1 < m.size → MeansFit m G limit growth (toRat low) high) :
    ∃ flat, tree.cut m.ids high = .ok flat ∧ flat.clusterCount = 1 := by
  obtain ⟨flat, hcut, hcount⟩ := cut_ofMatrix htree hids rfl (isNaN_of_isFinite hhigh)
  obtain ⟨-, hlength, members, s, hrun⟩ := run_of_ofMatrix htree
  have hnone : ∀ merge ∈ tree.merges, lt high merge.distance = false := by
    intro merge hmerge
    have hsome := List.length_pos_of_mem hmerge
    have hfit := hfit (by omega)
    obtain ⟨hfinite, hle⟩ := hrun.forall_merges (fun _ _ _ hle => hle)
      (fun hrun => hrun.distances_le hfit) merge hmerge
    exact (lt_eq_false_iff_toRat hhigh hfinite).mpr hle
  rw [length_appliedMerges, List.findIdx_eq_length.mpr hnone, hlength] at hcount
  exact ⟨flat, hcut, by omega⟩

/-- Entries of a valid matrix are in the range up to a finite bound. -/
theorem ScoreMatrix.inRange_cell (hvalid : m.validate = .ok ()) (hlow : isFinite low = true)
    {i j : Nat} (hij : i < j) (hj : j < m.size) (hle : le (m.cell i j) low = true) :
    InRange (toRat low) (m.cell i j) := by
  obtain ⟨hfinite, hnonneg⟩ := cell_of_valid hvalid hij hj
  refine (inRange_of_lt_zero hfinite hnonneg).weaken ?_
  exact (lt_eq_false_iff_toRat hlow hfinite).mp (OrderedScalar.le_iff.mp hle).2.2

theorem le_mul_size (hpos : 0 < m.size) {v : ℚ} (hv : 0 ≤ v) : v ≤ m.size * m.size * v := by
  have hone : (1 : ℚ) ≤ m.size * m.size := by exact_mod_cast Nat.mul_pos hpos hpos
  exact le_mul_of_one_le_left hv hone

theorem meansFit_doubles (hsize : m.size < 2 ^ 64)
    (hentries : ∀ i j, i < j → j < m.size → InRange (toRat low) (m.cell i j))
    (hsome : 1 < m.size) (hhigh : isFinite high = true)
    (hgrown : toRat low * (1 + unitRoundoff) ^ m.size ≤ toRat high)
    (hfits : m.size * m.size * toRat high < 2 ^ 1023) :
    MeansFit m (InRange (2 ^ 1023)) (2 ^ 1023) (1 + unitRoundoff) (toRat low) high := by
  have hnonneg : 0 ≤ toRat low := (hentries 0 1 zero_lt_one hsome).bound_nonneg
  have hcount : m.size * m.size ≤ 2 ^ 128 := by
    calc m.size * m.size ≤ 2 ^ 64 * 2 ^ 64 := Nat.mul_le_mul hsize.le hsize.le
      _ = 2 ^ 128 := (Nat.pow_add 2 64 64).symm
  have hadds := addsWithin_doubles hcount
  have hle : toRat low ≤ toRat high :=
    (le_mul_of_one_le_right hnonneg (one_le_pow₀ hadds.one_le)).trans hgrown
  have hlimit : toRat low ≤ 2 ^ 1023 :=
    hle.trans ((le_mul_size (by omega) (hnonneg.trans hle)).trans hfits.le)
  exact ⟨hadds, fun i j hij hj => ⟨(hentries i j hij hj).weaken hlimit, (hentries i j hij hj).le⟩,
    hnonneg, hhigh, hgrown, hfits⟩

theorem meansFit_grid (hlow : isFinite low = true)
    (hentries : ∀ i j, i < j → j < m.size → InRange (toRat low) (m.cell i j))
    (hsome : 1 < m.size) {e : ℤ} (he : -1074 ≤ e) (he' : e ≤ 970)
    (hgrid : ∀ i j, i < j → j < m.size → ∃ k : ℕ, toRat (m.cell i j) = k * 2 ^ e)
    (hcount : m.size * m.size < 2 ^ 53) (hfits : m.size * m.size * toRat low < 2 ^ 53 * 2 ^ e) :
    MeansFit m (fun x => OnGrid e x ∧ toRat x < 2 ^ 53 * 2 ^ e) (2 ^ 53 * 2 ^ e) 1 (toRat low)
      low := by
  have hnonneg : 0 ≤ toRat low := (hentries 0 1 zero_lt_one hsome).bound_nonneg
  refine ⟨addsWithin_grid he he' hcount, ?_, hnonneg, hlow, by rw [one_pow, mul_one], hfits⟩
  intro i j hij hj
  have hentry := hentries i j hij hj
  have hlimit : toRat (m.cell i j) < 2 ^ 53 * 2 ^ e :=
    hentry.le.trans_lt ((le_mul_size (by omega) hnonneg).trans_lt hfits)
  exact ⟨⟨⟨hentry.finite, hgrid i j hij hj⟩, hlimit⟩, hentry.le⟩

end cuts

/-- **Cuts with average linkage at a bound of the distances.** If no distance of two blocks is above
`low`, all blocks are one cluster at every threshold that is above `low` by the rounding of as many
sums as there are blocks. If the distances lie on a grid and their sums fit the mantissa, they are one
cluster at `low` itself. Sums must not overflow, and the number of blocks fits a machine word. -/
theorem Dendrogram.cut_average_of_le (m : ScoreMatrix Float) (hpos : 0 < m.size)
    (hsize : m.size < 2 ^ 64) (hvalid : m.validate = .ok ()) (hids : m.ids.Nodup) (low : Float)
    (hlow : isFinite low = true)
    (hentries : ∀ i j, i < j → j < m.size → le (m.cell i j) low = true) :
    ∃ tree, ofMatrix .average m = .ok tree ∧
      (∀ high, isFinite high = true → toRat low * (1 + unitRoundoff) ^ m.size ≤ toRat high →
        m.size * m.size * toRat high < 2 ^ 1023 →
        ∃ flat, tree.cut m.ids high = .ok flat ∧ flat.clusterCount = 1) ∧
      ∀ e : ℤ, -1074 ≤ e → e ≤ 970 →
        (∀ i j, i < j → j < m.size → ∃ k : ℕ, toRat (m.cell i j) = k * 2 ^ e) →
        m.size * m.size < 2 ^ 53 → m.size * m.size * toRat low < 2 ^ 53 * 2 ^ e →
        ∃ flat, tree.cut m.ids low = .ok flat ∧ flat.clusterCount = 1 := by
  have htree := ofMatrix_of_valid .average hvalid
  have hrange : ∀ i j, i < j → j < m.size → InRange (toRat low) (m.cell i j) := fun i j hij hj =>
    m.inRange_cell hvalid hlow hij hj (hentries i j hij hj)
  refine ⟨_, htree, ?_, ?_⟩
  · intro high hhigh hgrown hfits
    exact cut_of_meansFit htree hpos hids hhigh fun hsome =>
      meansFit_doubles hsize hrange hsome hhigh hgrown hfits
  · intro e he he' hgrid hcount hfits
    exact cut_of_meansFit htree hpos hids hlow fun hsome =>
      meansFit_grid hlow hrange hsome he he' hgrid hcount hfits

/-- Four blocks that are all 0.1 apart. -/
def ScoreMatrix.equalBlocks : ScoreMatrix Float where
  ids := [⟨"a"⟩, ⟨"b"⟩, ⟨"c"⟩, ⟨"d"⟩]
  values := #[0, 0.1, 0.1, 0.1, 0.1, 0, 0.1, 0.1, 0.1, 0.1, 0, 0.1, 0.1, 0.1, 0.1, 0]

theorem ScoreMatrix.equalBlocks_valid : equalBlocks.validate = .ok () := by
  refine validate_eq_ok_iff.mpr (Option.isNone_iff_eq_none.mp ?_)
  decide +kernel

theorem ScoreMatrix.equalBlocks_le :
    ∀ i j, i ≠ j → i < equalBlocks.size → j < equalBlocks.size →
      le (equalBlocks.cell i j) 0.1 = true := by
  have hall : ∀ i < 4, ∀ j < 4, i ≠ j → le (equalBlocks.cell i j) 0.1 = true := by decide +kernel
  exact fun i j hij hi hj => hall i hi j hj hij

/-- The tied blocks are one cluster at 4, their largest distance, since all are whole numbers. The equal
blocks are one cluster a few roundings above 0.1. -/
theorem Dendrogram.cut_average_fourBlocks_equalBlocks :
    (∃ tree flat, ofMatrix .average ScoreMatrix.fourBlocks = .ok tree ∧
      tree.cut ScoreMatrix.fourBlocks.ids 4 = .ok flat ∧ flat.clusterCount = 1) ∧
    ∃ tree flat, ofMatrix .average ScoreMatrix.equalBlocks = .ok tree ∧
      tree.cut ScoreMatrix.equalBlocks.ids 0.1000000000000001 = .ok flat ∧
      flat.clusterCount = 1 := by
  have htwo : toRat (2 : Float) = 2 := by
    rw [toRat_of_unpacked (m := 2 ^ 52) (e := -51) (h := by decide) (by rfl)]
    norm_num
  have hfour : toRat (4 : Float) = 4 := by
    rw [toRat_of_unpacked (m := 2 ^ 52) (e := -50) (h := by decide) (by rfl)]
    norm_num
  have hlow : toRat (0.1 : Float) = 7205759403792794 * 2 ^ (-56 : ℤ) :=
    toRat_of_unpacked (m := 7205759403792794) (h := by decide) (by rfl)
  have hhigh : toRat (0.1000000000000001 : Float) = 7205759403792801 * 2 ^ (-56 : ℤ) :=
    toRat_of_unpacked (m := 7205759403792801) (h := by decide) (by rfl)
  constructor
  · have hentries : ∀ i < 4, ∀ j < 4, i < j →
        le (ScoreMatrix.fourBlocks.cell i j) 4 = true ∧
          (ScoreMatrix.fourBlocks.cell i j = 2 ∨ ScoreMatrix.fourBlocks.cell i j = 4) := by
      decide +kernel
    obtain ⟨tree, htree, -, hgrid⟩ := cut_average_of_le ScoreMatrix.fourBlocks (by decide)
      (by decide) ScoreMatrix.fourBlocks_valid (by decide) 4 (by decide +kernel)
      fun i j hij hj => (hentries i (hij.trans hj) j hj hij).1
    obtain ⟨flat, hcut, hone⟩ := hgrid 0 (by decide) (by decide) (by
        intro i j hij hj
        rcases (hentries i (hij.trans hj) j hj hij).2 with heq | heq <;> rw [heq]
        · exact ⟨2, by rw [htwo]; norm_num⟩
        · exact ⟨4, by rw [hfour]; norm_num⟩)
      (by decide) (by rw [hfour]; norm_num [ScoreMatrix.fourBlocks, ScoreMatrix.size])
    exact ⟨tree, flat, htree, hcut, hone⟩
  · obtain ⟨tree, htree, hrounded, -⟩ := cut_average_of_le ScoreMatrix.equalBlocks (by decide)
      (by decide) ScoreMatrix.equalBlocks_valid (by decide) 0.1 (by decide +kernel)
      fun i j hij hj => ScoreMatrix.equalBlocks_le i j hij.ne (hij.trans hj) hj
    obtain ⟨flat, hcut, hone⟩ := hrounded 0.1000000000000001 (by decide +kernel)
      (by
        rw [hlow, hhigh]
        norm_num [ScoreMatrix.equalBlocks, ScoreMatrix.size, unitRoundoff])
      (by
        refine lt_of_lt_of_le ?_ (pow_le_pow_right₀ one_le_two (show 1 ≤ 1023 by decide))
        rw [hhigh]
        norm_num [ScoreMatrix.equalBlocks, ScoreMatrix.size])
    exact ⟨tree, flat, htree, hcut, hone⟩

/-- **A bound of all distances does not always join all blocks**: the mean of three distances of 0.1
is rounded up, and the last of four blocks stays apart at the threshold 0.1. -/
theorem Dendrogram.not_forall_single_at_bound :
    ¬ ∀ (m : ScoreMatrix Float) (threshold : Float), 0 < m.size → m.ids.Nodup →
      m.validate = .ok () → isFinite threshold = true →
      (∀ i j, i ≠ j → i < m.size → j < m.size → le (m.cell i j) threshold = true) →
      ∃ tree flat, ofMatrix .average m = .ok tree ∧ tree.cut m.ids threshold = .ok flat ∧
        flat.clusterCount = 1 := by
  intro hall
  have hids : ScoreMatrix.equalBlocks.ids.Nodup := by decide
  obtain ⟨tree, flat, htree, hcut, hone⟩ := hall ScoreMatrix.equalBlocks 0.1 (by decide) hids
    ScoreMatrix.equalBlocks_valid (by decide +kernel) ScoreMatrix.equalBlocks_le
  obtain ⟨flat', hcut', hcount⟩ := cut_ofMatrix htree hids rfl
    (show isNaN (0.1 : Float) = false by decide +kernel)
  obtain rfl := Except.ok.inj (hcut.symm.trans hcut')
  obtain rfl := Except.ok.inj (htree.symm.trans (ofMatrix_of_valid .average
    ScoreMatrix.equalBlocks_valid))
  have htwo : (Agglomeration.mergesFrom .average 3 4
      (.start ScoreMatrix.equalBlocks)).findIdx (fun merge => lt 0.1 merge.distance) = 2 := by
    decide +kernel
  rw [length_appliedMerges] at hcount
  have hcount : flat.clusterCount + 2 = 4 := htwo ▸ hcount
  omega

end BlockAffinity
