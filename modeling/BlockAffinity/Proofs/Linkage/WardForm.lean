import Mathlib
import BlockAffinity.Proofs.Linkage.Means

/-!
# BlockAffinity.Proofs.Linkage.WardForm

**Ward linkage in closed form**, in exact arithmetic. Ward linkage only ever sees three distances and
three sizes, and yet the square of the distance of two clusters depends on nothing but the squared
distances between their blocks (`wardForm`): it grows with the mean square between the clusters and
falls with the mean squares within them. For distances between points of a Euclidean space it is the
squared distance of the two centroids, scaled by the sizes (`wardForm_sqDist`).

The closed form satisfies the recurrence that the update computes, for any distances
(`wardForm_union`). It carries over to the distances because the two clusters that are merged are a
closest pair: what the root is taken of is then not negative, and raising it to zero has no effect.
-/

namespace BlockAffinity

open Scalar ExactField

/-! ### The closed form -/

section form

variable {K : Type} [Field K] (f : Nat → Nat → K) {A B C : Finset Nat}

/-- The sum over all pairs of two different blocks from `A`, each pair once. -/
def innerSum (A : Finset Nat) : K := ∑ x ∈ A, ∑ y ∈ A with x < y, f x y

/-- The square of the Ward distance of two clusters, from a function for the squares of the distances
of their blocks. -/
def wardForm (A B : Finset Nat) : K :=
  (2 * A.card * B.card : ℕ) / (A.card + B.card) *
    (crossSum f A B / (A.card * B.card) - innerSum f A / A.card ^ 2 - innerSum f B / B.card ^ 2)

@[simp] theorem innerSum_singleton (x : Nat) : innerSum f {x} = 0 := by
  simp [innerSum, Finset.sum_filter]

variable {f}

/-- The pairs of blocks of a union are those within its two parts and those between them. -/
theorem innerSum_union (hf : ∀ x y, f x y = f y x) (h : Disjoint A B) :
    innerSum f (A ∪ B) = innerSum f A + innerSum f B + crossSum f A B := by
  have hsplit : ∀ x, ∑ y ∈ A ∪ B with x < y, f x y =
      ∑ y ∈ A with x < y, f x y + ∑ y ∈ B with x < y, f x y := by
    intro x
    rw [Finset.filter_union, Finset.sum_union (Finset.disjoint_filter_filter h)]
  -- a pair between the parts is counted from the side of its smaller block
  have hcross : ∑ x ∈ A, ∑ y ∈ B with x < y, f x y + ∑ x ∈ B, ∑ y ∈ A with x < y, f x y =
      crossSum f A B := by
    have hswap : ∑ x ∈ B, ∑ y ∈ A with x < y, f x y = ∑ x ∈ A, ∑ y ∈ B with ¬x < y, f x y := by
      simp only [Finset.sum_filter]
      rw [Finset.sum_comm]
      refine Finset.sum_congr rfl fun x hx => Finset.sum_congr rfl fun y hy => ?_
      have hne : x ≠ y := fun heq => Finset.disjoint_left.mp h hx (heq ▸ hy)
      rw [hf y x]
      exact if_congr (by omega) rfl rfl
    rw [hswap, ← Finset.sum_add_distrib, crossSum]
    exact Finset.sum_congr rfl fun x _ => Finset.sum_filter_add_sum_filter_not B (x < ·) (f x)
  rw [innerSum, Finset.sum_union h]
  simp only [hsplit, Finset.sum_add_distrib]
  rw [← hcross, innerSum, innerSum]
  ring

theorem wardForm_comm (hf : ∀ x y, f x y = f y x) (A B : Finset Nat) :
    wardForm f A B = wardForm f B A := by
  rw [wardForm, wardForm, crossSum_comm hf]
  push_cast
  ring

theorem wardForm_singleton [CharZero K] (x y : Nat) : wardForm f {x} {y} = f x y := by
  simp [wardForm]
  norm_num

/-- **The closed form satisfies the recurrence** by which Ward linkage goes on to a union. -/
theorem wardForm_union [CharZero K] (hf : ∀ x y, f x y = f y x) (hAB : Disjoint A B)
    (hA : A.Nonempty) (hB : B.Nonempty) (hC : C.Nonempty) :
    wardForm f C (A ∪ B) =
      ((A.card + C.card) * wardForm f C A + (B.card + C.card) * wardForm f C B -
        C.card * wardForm f A B) / (A.card + B.card + C.card) := by
  have ha : (A.card : K) ≠ 0 := Nat.cast_ne_zero.mpr hA.card_ne_zero
  have hb : (B.card : K) ≠ 0 := Nat.cast_ne_zero.mpr hB.card_ne_zero
  have hc : (C.card : K) ≠ 0 := Nat.cast_ne_zero.mpr hC.card_ne_zero
  have hab : (A.card + B.card : K) ≠ 0 := by
    exact_mod_cast (Nat.add_pos_left hA.card_pos B.card).ne'
  have hca : (C.card + A.card : K) ≠ 0 := by
    exact_mod_cast (Nat.add_pos_left hC.card_pos A.card).ne'
  have hcb : (C.card + B.card : K) ≠ 0 := by
    exact_mod_cast (Nat.add_pos_left hC.card_pos B.card).ne'
  have hac : (A.card + C.card : K) ≠ 0 := by rwa [add_comm]
  have hbc : (B.card + C.card : K) ≠ 0 := by rwa [add_comm]
  have habc : (A.card + B.card + C.card : K) ≠ 0 := by
    exact_mod_cast (Nat.add_pos_right (A.card + B.card) hC.card_pos).ne'
  have hcab : (C.card + (A.card + B.card) : K) ≠ 0 := by rwa [add_comm]
  rw [wardForm, wardForm, wardForm, wardForm, innerSum_union hf hAB, crossSum_union f C hAB,
    Finset.card_union_of_disjoint hAB]
  push_cast
  field_simp
  ring

/-- Only the pairs of different blocks of the two clusters count. -/
theorem wardForm_congr {g : Nat → Nat → K} (hAB : Disjoint A B)
    (h : ∀ x ∈ A ∪ B, ∀ y ∈ A ∪ B, x ≠ y → f x y = g x y) : wardForm f A B = wardForm g A B := by
  have hinner : ∀ S ⊆ A ∪ B, innerSum f S = innerSum g S := by
    intro S hS
    refine Finset.sum_congr rfl fun x hx => Finset.sum_congr rfl fun y hy => ?_
    obtain ⟨hy, hlt⟩ := Finset.mem_filter.mp hy
    exact h x (hS hx) y (hS hy) hlt.ne
  have hcross : crossSum f A B = crossSum g A B := by
    refine Finset.sum_congr rfl fun x hx => Finset.sum_congr rfl fun y hy => ?_
    exact h x (Finset.mem_union_left _ hx) y (Finset.mem_union_right _ hy)
      fun heq => Finset.disjoint_left.mp hAB hx (heq ▸ hy)
  rw [wardForm, wardForm, hcross, hinner A Finset.subset_union_left,
    hinner B Finset.subset_union_right]

/-- Taken in both orders, the pairs of different blocks of a cluster are all pairs but those of a
block with itself. -/
theorem crossSum_self (hf : ∀ x y, f x y = f y x) (hzero : ∀ x, f x x = 0) (A : Finset Nat) :
    crossSum f A A = 2 * innerSum f A := by
  induction A using Finset.induction_on with
  | empty => simp [crossSum, innerSum]
  | insert a A ha ih =>
      have hdisjoint : Disjoint A {a} := Finset.disjoint_singleton_right.mpr ha
      rw [← Finset.union_singleton, innerSum_union hf hdisjoint, crossSum_union f _ hdisjoint,
        crossSum_comm hf (A ∪ {a}) A, crossSum_comm hf (A ∪ {a}) {a},
        crossSum_union f _ hdisjoint, crossSum_union f _ hdisjoint, ih,
        crossSum_comm hf {a} A, crossSum_singleton, innerSum_singleton, hzero]
      ring

end form

/-! ### Points of a Euclidean space -/

section points

open RealInnerProductSpace

variable {E : Type} [NormedAddCommGroup E] (points : Nat → E) {A B : Finset Nat}

/-- The squared distance of two points. -/
def sqDist (x y : Nat) : ℝ := dist (points x) (points y) ^ 2

theorem sqDist_comm (x y : Nat) : sqDist points x y = sqDist points y x := by
  rw [sqDist, sqDist, dist_comm]

variable [InnerProductSpace ℝ E]

theorem crossSum_sqDist (A B : Finset Nat) :
    crossSum (sqDist points) A B =
      B.card * ∑ x ∈ A, ‖points x‖ ^ 2 + A.card * ∑ y ∈ B, ‖points y‖ ^ 2 -
        2 * ⟪∑ x ∈ A, points x, ∑ y ∈ B, points y⟫ := by
  have hpair : ∀ x y, sqDist points x y =
      ‖points x‖ ^ 2 + ‖points y‖ ^ 2 - 2 * ⟪points x, points y⟫ := by
    intro x y
    rw [sqDist, dist_eq_norm, norm_sub_sq_real]
    ring
  rw [sum_inner]
  simp only [crossSum, hpair, Finset.sum_sub_distrib, Finset.sum_add_distrib, Finset.sum_const,
    nsmul_eq_mul, ← Finset.mul_sum, inner_sum]

theorem innerSum_sqDist (A : Finset Nat) :
    innerSum (sqDist points) A =
      A.card * ∑ x ∈ A, ‖points x‖ ^ 2 - ‖∑ x ∈ A, points x‖ ^ 2 := by
  have hself := crossSum_self (sqDist_comm points) (by simp [sqDist]) A
  rw [crossSum_sqDist, real_inner_self_eq_norm_sq] at hself
  linarith

theorem centroid_eq_smul_sum (hA : A.Nonempty) :
    A.centroid ℝ points = (A.card : ℝ)⁻¹ • ∑ x ∈ A, points x := by
  rw [Finset.centroid, Finset.affineCombination_eq_linear_combination _ _ _
    (A.sum_centroidWeights_eq_one_of_nonempty ℝ hA), Finset.smul_sum]
  rfl

/-- **Between points** the closed form is the scaled squared distance of the centroids. -/
theorem wardForm_sqDist (hA : A.Nonempty) (hB : B.Nonempty) :
    wardForm (sqDist points) A B =
      2 * A.card * B.card / (A.card + B.card) *
        dist (A.centroid ℝ points) (B.centroid ℝ points) ^ 2 := by
  have ha : (A.card : ℝ) ≠ 0 := Nat.cast_ne_zero.mpr hA.card_ne_zero
  have hb : (B.card : ℝ) ≠ 0 := Nat.cast_ne_zero.mpr hB.card_ne_zero
  rw [wardForm, crossSum_sqDist, innerSum_sqDist, innerSum_sqDist, dist_eq_norm,
    norm_sub_sq_real, centroid_eq_smul_sum points hA, centroid_eq_smul_sum points hB, norm_smul,
    norm_smul, mul_pow, mul_pow, norm_inv, norm_inv, Real.norm_natCast, Real.norm_natCast,
    real_inner_smul_left, real_inner_smul_right]
  push_cast
  congr 1
  field_simp
  ring

end points

/-! ### Along a run -/

theorem Clusters.wardSquared_eq {K : Type} [ExactField K] (dki dkj dij : K) (ni nj nk : Nat) :
    wardSquared dki dkj dij ni nj nk =
      ((ni + nk) * dki ^ 2 + (nj + nk) * dkj ^ 2 - nk * dij ^ 2) / (ni + nj + nk) := by
  rw [sq, sq, sq, ← mul_assoc, ← mul_assoc, ← mul_assoc]
  rfl

theorem ScoreMatrix.sq_pairDistance_comm {K : Type} [ExactField K] (m : ScoreMatrix K) (x y : Nat) :
    m.pairDistance x y ^ 2 = m.pairDistance y x ^ 2 := by
  rw [m.pairDistance_comm]

namespace Agglomeration

variable {K : Type} [ExactField K] {m : ScoreMatrix K} {merges : List (Merge K)}
  {members : Nat → Finset Nat} {s : Agglomeration K}

/-- **Along a run with Ward linkage** the squared distances have the closed form. -/
theorem Run.distances_eq_wardForm (hroots : ExactRoots K) (hvalid : m.validate = .ok ())
    (h : Run .ward m merges members s) :
    s.clusters.Relates members s.clusters.distances fun A B distance =>
      distance ^ 2 = wardForm (fun x y => m.pairDistance x y ^ 2) A B := by
  refine h.relates_distances ?_ ?_ ?_
  · intro A B distance hform
    rw [hform, wardForm_comm m.sq_pairDistance_comm]
  · intro x y _ _ _
    rw [wardForm_singleton]
  · intro merges members s a near hrun hpair hform k hk
    obtain ⟨hactive, hka, hkb⟩ := Clusters.mem_others.mp hk
    have hholds := hrun.sound.holds
    have hclosest := hrun.isClosest hpair
    have ha := hclosest.left
    have hb := hclosest.right
    have hab := hclosest.ordered.ne
    -- the root is taken of something that is not negative
    obtain ⟨bound, hpos, hapart, -, -⟩ := hrun.apart hvalid fun _ => hroots
    have hsquare := hclosest.le_wardSquared hrun.sound.shaped hholds
      (hpos.trans (hapart.bound_le a near.slot ha hb hab)) hk
    obtain ⟨-, hroot⟩ := hroots _ ((mul_self_nonneg _).trans hsquare)
    have hjoined : s.clusters.joinedDistance .ward a near.slot k ^ 2 =
        Clusters.wardSquared (s.clusters.distances.get k a) (s.clusters.distances.get k near.slot)
          (s.clusters.distances.get a near.slot) (s.clusters.sizeAt a)
          (s.clusters.sizeAt near.slot) (s.clusters.sizeAt k) := by
      rw [Clusters.joinedDistance, Clusters.wardDistance_eq, Clusters.maximum_eq_of_le hsquare, sq]
      exact hroot
    rw [hjoined, Clusters.wardSquared_eq, hform k a hactive ha hka,
      hform k near.slot hactive hb hkb, hform a near.slot ha hb hab, hholds.sizeAt_eq ha,
      hholds.sizeAt_eq hb, hholds.sizeAt_eq hactive]
    exact (wardForm_union m.sq_pairDistance_comm (hholds.disjoint ha hb hab) ⟨a, hholds.first_mem ha⟩
      ⟨near.slot, hholds.first_mem hb⟩ ⟨k, hholds.first_mem hactive⟩).symm

/-- No distance on the way is negative. -/
theorem Run.distances_nonneg {linkage : Linkage} (hroots : linkage = .ward → ExactRoots K)
    (hvalid : m.validate = .ok ()) (h : Run linkage m merges members s) :
    s.clusters.Relates members s.clusters.distances fun _ _ distance => 0 ≤ distance := by
  obtain ⟨bound, hpos, hapart, -, -⟩ := h.apart hvalid hroots
  exact fun i j hi hj hij => hpos.trans (hapart.bound_le i j hi hj hij)

/-- **Between points of a Euclidean space** the distances are the scaled distances of centroids. -/
theorem Run.distances_eq_centroids {E : Type} [NormedAddCommGroup E] [InnerProductSpace ℝ E]
    {m : ScoreMatrix ℝ} {merges : List (Merge ℝ)} {s : Agglomeration ℝ} (points : Nat → E)
    (hpoints : ∀ x y, x < y → y < m.size → m.cell x y = dist (points x) (points y))
    (hvalid : m.validate = .ok ()) (h : Run .ward m merges members s) :
    s.clusters.Relates members s.clusters.distances fun A B distance =>
      distance = √(2 * A.card * B.card / (A.card + B.card)) *
        dist (A.centroid ℝ points) (B.centroid ℝ points) := by
  intro i j hi hj hij
  have hholds := h.sound.holds
  have hnonneg : 0 ≤ s.clusters.distances.get i j :=
    h.distances_nonneg (fun _ => exactRoots_real) hvalid i j hi hj hij
  have hform : s.clusters.distances.get i j ^ 2 = wardForm _ (members i) (members j) :=
    h.distances_eq_wardForm exactRoots_real hvalid i j hi hj hij
  -- within the two clusters the matrix holds the distances of the points
  have hsquares : ∀ x ∈ members i ∪ members j, ∀ y ∈ members i ∪ members j, x ≠ y →
      m.pairDistance x y ^ 2 = sqDist points x y := by
    have hlt : ∀ x ∈ members i ∪ members j, x < m.size := by
      intro x hx
      rcases Finset.mem_union.mp hx with hx | hx
      · exact hholds.mem_lt hi hx
      · exact hholds.mem_lt hj hx
    intro x hx y hy hxy
    rcases Nat.lt_or_gt_of_ne hxy with hlt' | hgt
    · rw [m.pairDistance_of_lt hlt', hpoints x y hlt' (hlt y hy), sqDist]
    · rw [m.pairDistance_comm, m.pairDistance_of_lt hgt, hpoints y x hgt (hlt x hx), sqDist,
        dist_comm]
  rw [wardForm_congr (hholds.disjoint hi hj hij) hsquares,
    wardForm_sqDist points ⟨i, hholds.first_mem hi⟩ ⟨j, hholds.first_mem hj⟩] at hform
  calc s.clusters.distances.get i j = √(s.clusters.distances.get i j ^ 2) :=
        (Real.sqrt_sq hnonneg).symm
    _ = _ := by rw [hform, Real.sqrt_mul (by positivity), Real.sqrt_sq dist_nonneg]

end Agglomeration

/-- **Ward linkage in closed form.** With `A` and `B` the blocks below the two clusters that a merge
names, the square of its distance is `2|A||B| / (|A| + |B|)` times the mean squared distance between
`A` and `B`, less the squared distances within each of them divided by the square of its size. If the
matrix holds the distances of points of a Euclidean space, then the distance of the merge is that of
the centroids of `A` and `B`, times the root of the same factor. -/
theorem Dendrogram.ofMatrix_ward_eq_wardForm (m : ScoreMatrix ℝ) (hvalid : m.validate = .ok ()) :
    ∃ tree, ofMatrix .ward m = .ok tree ∧ ∀ merge ∈ tree.merges,
      0 ≤ merge.distance ∧
      merge.distance ^ 2 = wardForm (fun x y => m.pairDistance x y ^ 2)
        (tree.leavesBelow merge.left) (tree.leavesBelow merge.right) ∧
      ∀ (E : Type) [NormedAddCommGroup E] [InnerProductSpace ℝ E] (points : Nat → E),
        (∀ x y, x < y → y < m.size → m.cell x y = dist (points x) (points y)) →
        merge.distance =
          √(2 * (tree.leavesBelow merge.left).card * (tree.leavesBelow merge.right).card /
            ((tree.leavesBelow merge.left).card + (tree.leavesBelow merge.right).card)) *
          dist ((tree.leavesBelow merge.left).centroid ℝ points)
            ((tree.leavesBelow merge.right).centroid ℝ points) := by
  obtain ⟨merges, members, s, htree, hrun, -⟩ := run_ofMatrix .ward hvalid
  refine ⟨_, htree, fun merge hmerge => ⟨?_, ?_, ?_⟩⟩
  · exact hrun.forall_merges (fun _ _ _ hnonneg => hnonneg)
      (fun hrun => hrun.distances_nonneg (fun _ => exactRoots_real) hvalid) merge hmerge
  · refine hrun.forall_merges ?_ (fun hrun => hrun.distances_eq_wardForm exactRoots_real hvalid)
      merge hmerge
    intro A B distance hform
    rw [hform, wardForm_comm m.sq_pairDistance_comm]
  · intro E _ _ points hpoints
    refine hrun.forall_merges ?_ (fun hrun => hrun.distances_eq_centroids points hpoints hvalid)
      merge hmerge
    intro A B distance hcentroids
    rw [hcentroids, dist_comm, mul_right_comm, add_comm]

/-- The distances of three points on a line, at 0, 1 and 3. -/
noncomputable def ScoreMatrix.threeOnLine : ScoreMatrix ℝ where
  ids := [⟨"a"⟩, ⟨"b"⟩, ⟨"c"⟩]
  values := (#[0, 1, 3, 1, 0, 2, 3, 2, 0] : Array ℕ).map Nat.cast

theorem ScoreMatrix.threeOnLine_valid : threeOnLine.validate = .ok () := by
  have hzero : eq (0 : ℝ) zero = true := decide_eq_true rfl
  have hone : lt (1 : ℝ) zero = false := decide_eq_false (by show ¬(1 : ℝ) < 0; norm_num)
  have htwo : lt (2 : ℝ) zero = false := decide_eq_false (by show ¬(2 : ℝ) < 0; norm_num)
  have hthree : lt (3 : ℝ) zero = false := decide_eq_false (by show ¬(3 : ℝ) < 0; norm_num)
  have hfinite : ∀ x : ℝ, isFinite x = true := fun _ => rfl
  rw [validate_eq_ok_iff]
  simp [defect?, rowDefect?, diagonalDefect?, pairDefect?, entryDefect?, cell?, size, threeOnLine,
    List.range_succ, List.range'_succ, hzero, hone, htwo, hthree, hfinite, isAsymmetric_self]

/-- The point at 3 joins the other two at the root of 4/3 times its distance from the middle between
them. -/
theorem Dendrogram.threeOnLine_eq_wardForm :
    ScoreMatrix.threeOnLine.validate = .ok () ∧
    ∃ tree, ofMatrix .ward ScoreMatrix.threeOnLine = .ok tree ∧ ∀ merge ∈ tree.merges,
      merge.distance ^ 2 = wardForm (fun x y => ScoreMatrix.threeOnLine.pairDistance x y ^ 2)
        (tree.leavesBelow merge.left) (tree.leavesBelow merge.right) ∧
      merge.distance =
        √(2 * (tree.leavesBelow merge.left).card * (tree.leavesBelow merge.right).card /
          ((tree.leavesBelow merge.left).card + (tree.leavesBelow merge.right).card)) *
        dist ((tree.leavesBelow merge.left).centroid ℝ fun x => [(0 : ℝ), 1, 3].getD x 0)
          ((tree.leavesBelow merge.right).centroid ℝ fun x => [(0 : ℝ), 1, 3].getD x 0) := by
  obtain ⟨tree, htree, hmerges⟩ :=
    ofMatrix_ward_eq_wardForm ScoreMatrix.threeOnLine ScoreMatrix.threeOnLine_valid
  have hpoints : ∀ x y, x < y → y < ScoreMatrix.threeOnLine.size →
      ScoreMatrix.threeOnLine.cell x y =
        dist ([(0 : ℝ), 1, 3].getD x 0) ([(0 : ℝ), 1, 3].getD y 0) := by
    intro x y hxy hy
    have hy : y < 3 := hy
    interval_cases y <;> interval_cases x <;>
      norm_num [ScoreMatrix.cell, ScoreMatrix.cell?, ScoreMatrix.size, ScoreMatrix.threeOnLine,
        Real.dist_eq]
  refine ⟨ScoreMatrix.threeOnLine_valid, tree, htree, fun merge hmerge => ?_⟩
  obtain ⟨-, hform, hcentroids⟩ := hmerges merge hmerge
  exact ⟨hform, hcentroids ℝ _ hpoints⟩

end BlockAffinity
