import Mathlib
import BlockAffinity.Proofs.Linkage.Neighbours
import BlockAffinity.Proofs.Number.Exact
import BlockAffinity.Proofs.ScoreMatrix.Validity

/-!
# BlockAffinity.Proofs.Linkage.Monotone

**Merge distances never decrease** in exact arithmetic, for any distances and both linkages. What a
step merges is a closest pair, so all distances are at least that of the pair; both linkages put
the new cluster at least that far from every other one (`le_average`, `IsClosest.le_wardSquared`);
so no later pair is closer. A triangle inequality is not needed.

For Ward linkage the same bound says that the root is taken of something that is not negative, so
that raising it to zero first has no effect.
-/

namespace BlockAffinity

open Scalar OrderedScalar ExactField

/-! ### Both linkages keep their distance -/

section field

variable {K : Type} [Field K] [LinearOrder K] [IsStrictOrderedRing K]

/-- A mean of distances is at least a lower bound of them. -/
theorem le_average {d dki dkj ni nj nk : K} (hi : 0 < ni) (hj : 0 < nj) (hk : 0 < nk)
    (hki : d ≤ dki) (hkj : d ≤ dkj) :
    d ≤ (dki * (nk * ni) + dkj * (nk * nj)) / (nk * (ni + nj)) := by
  rw [le_div_iff₀ (by positivity)]
  calc d * (nk * (ni + nj)) = d * (nk * ni) + d * (nk * nj) := by ring
    _ ≤ dki * (nk * ni) + dkj * (nk * nj) :=
        add_le_add (mul_le_mul_of_nonneg_right hki (by positivity))
          (mul_le_mul_of_nonneg_right hkj (by positivity))

/-- What Ward linkage takes the root of is at least the square of the distance of the two clusters
that are merged, if this is not larger than their distances to the third one. -/
theorem le_ward {dij dki dkj ni nj nk : K} (hi : 0 < ni) (hj : 0 < nj) (hk : 0 < nk)
    (hij : 0 ≤ dij) (hki : dij ≤ dki) (hkj : dij ≤ dkj) :
    dij * dij ≤
      ((ni + nk) * dki * dki + (nj + nk) * dkj * dkj - nk * dij * dij) / (ni + nj + nk) := by
  rw [le_div_iff₀ (by positivity)]
  have hki' : (ni + nk) * (dij * dij) ≤ (ni + nk) * (dki * dki) :=
    mul_le_mul_of_nonneg_left (mul_self_le_mul_self hij hki) (by positivity)
  have hkj' : (nj + nk) * (dij * dij) ≤ (nj + nk) * (dkj * dkj) :=
    mul_le_mul_of_nonneg_left (mul_self_le_mul_self hij hkj) (by positivity)
  linarith

end field

namespace Clusters

variable {α K : Type} [ExactField K]

/-- What Ward linkage takes the root of. -/
def wardSquared [Scalar α] (dki dkj dij : α) (ni nj nk : Nat) : α :=
  ((ofNat ni + ofNat nk) * dki * dki + (ofNat nj + ofNat nk) * dkj * dkj -
    ofNat nk * dij * dij) / (ofNat ni + ofNat nj + ofNat nk)

theorem wardDistance_eq [Scalar α] (dki dkj dij : α) (ni nj nk : Nat) :
    wardDistance dki dkj dij ni nj nk =
      sqrt (maximum (wardSquared dki dkj dij ni nj nk) zero) :=
  rfl

/-- No two slots in use are closer than `bound`, and for average linkage the distance of two slots
is the mean that their sum stands for. -/
structure Apart (linkage : Linkage) (s : Clusters K) (bound : K) : Prop where
  bound_le : ∀ i j, s.isActive i = true → s.isActive j = true → i ≠ j →
    bound ≤ s.distances.get i j
  sum_eq : linkage = .average → ∀ i j, s.isActive i = true → s.isActive j = true → i ≠ j →
    s.sums.get i j = s.distances.get i j * (ofNat (s.sizeAt i) * ofNat (s.sizeAt j))

theorem apart_singletons (linkage : Linkage) {m : ScoreMatrix K} (hvalid : m.validate = .ok ()) :
    (singletons m).Apart linkage 0 := by
  refine ⟨?_, ?_⟩
  · intro i j hi hj hij
    have hi := (isActive_singletons m i).mp hi
    have hj := (isActive_singletons m j).mp hj
    rw [distance_singletons m hi hj hij]
    obtain ⟨-, hlt⟩ := ScoreMatrix.cell_of_valid hvalid
      (show min i j < max i j by omega) (show max i j < m.size by omega)
    exact not_lt.mp (of_decide_eq_false hlt)
  · intro _ i j hi hj _
    have hi := (isActive_singletons m i).mp hi
    have hj := (isActive_singletons m j).mp hj
    have hone : (ofNat 1 : K) = 1 := Nat.cast_one
    rw [sizeAt_singletons m hi, sizeAt_singletons m hj, hone, mul_one, mul_one]
    rfl

section join

variable {s : Clusters K} {n a b newId : Nat} {linkage : Linkage} {members : Nat → Finset Nat}
  {bound : K}

theorem ofNat_pos {k : Nat} (hk : 0 < k) : (0 : K) < ofNat k := Nat.cast_pos.mpr hk

theorem ofNat_mul (k l : Nat) : (ofNat (k * l) : K) = ofNat k * ofNat l := Nat.cast_mul k l

theorem ofNat_add (k l : Nat) : (ofNat (k + l) : K) = ofNat k + ofNat l := Nat.cast_add k l

theorem IsClosest.le (h : s.IsClosest a b) (hshaped : s.Shaped n) {i j : Nat}
    (hi : s.isActive i = true) (hj : s.isActive j = true) (hij : i ≠ j) :
    s.distances.get a b ≤ s.distances.get i j := by
  rcases Nat.lt_or_gt_of_ne hij with hlt | hgt
  · exact not_lt.mp (of_decide_eq_false (h.least i j hi hj hlt))
  · rw [hshaped.distance_comm hi hj]
    exact not_lt.mp (of_decide_eq_false (h.least j i hj hi hgt))

/-- **Ward linkage of a closest pair** takes the root of at least the square of its distance. -/
theorem IsClosest.le_wardSquared (h : s.IsClosest a b) (hshaped : s.Shaped n)
    (hholds : s.Holds n members) (hpos : 0 ≤ s.distances.get a b) {k : Nat} (hk : k ∈ s.others a b) :
    s.distances.get a b * s.distances.get a b ≤
      wardSquared (s.distances.get k a) (s.distances.get k b) (s.distances.get a b) (s.sizeAt a)
        (s.sizeAt b) (s.sizeAt k) := by
  obtain ⟨hactive, hka, hkb⟩ := mem_others.mp hk
  exact le_ward (ofNat_pos (hholds.size_pos h.left)) (ofNat_pos (hholds.size_pos h.right))
    (ofNat_pos (hholds.size_pos hactive)) hpos (h.le hshaped hactive h.left hka)
    (h.le hshaped hactive h.right hkb)

theorem maximum_eq_of_le {d q : K} (h : d * d ≤ q) : maximum q zero = q :=
  max_eq_left ((mul_self_nonneg d).trans h)

/-- The distance of a new cluster to any other one is at least that of the closest pair it was made
of. -/
theorem Apart.le_joinedDistance (h : s.Apart linkage bound) (hholds : s.Holds n members)
    (hshaped : s.Shaped n) (hroots : linkage = .ward → ExactRoots K) (hclosest : s.IsClosest a b)
    (hpos : 0 ≤ s.distances.get a b) {k : Nat} (hk : k ∈ s.others a b) :
    s.distances.get a b ≤ s.joinedDistance linkage a b k := by
  obtain ⟨hactive, hka, hkb⟩ := mem_others.mp hk
  cases linkage with
  | average =>
      rw [joinedDistance, joinedSum, h.sum_eq rfl k a hactive hclosest.left hka,
        h.sum_eq rfl k b hactive hclosest.right hkb, ofNat_mul, ofNat_add]
      exact le_average (ofNat_pos (hholds.size_pos hclosest.left))
        (ofNat_pos (hholds.size_pos hclosest.right)) (ofNat_pos (hholds.size_pos hactive))
        (hclosest.le hshaped hactive hclosest.left hka)
        (hclosest.le hshaped hactive hclosest.right hkb)
  | ward =>
      have hsquare := hclosest.le_wardSquared hshaped hholds hpos hk
      obtain ⟨hroot, hroot'⟩ := hroots rfl _ ((mul_self_nonneg _).trans hsquare)
      rw [joinedDistance, wardDistance_eq, maximum_eq_of_le hsquare]
      refine (mul_self_le_mul_self_iff hpos hroot).mpr ?_
      rwa [hroot']

/-- The sum for a new cluster stands for its mean distance. -/
theorem joinedSum_eq (hholds : s.Holds n members) (ha : s.isActive a = true) {k : Nat}
    (hk : s.isActive k = true) : s.joinedSum a b k =
      s.joinedDistance .average a b k * (ofNat (s.sizeAt k) * ofNat (s.sizeAt a + s.sizeAt b)) := by
  have hpos : (0 : K) < ofNat (s.sizeAt k * (s.sizeAt a + s.sizeAt b)) :=
    ofNat_pos (Nat.mul_pos (hholds.size_pos hk) (Nat.add_pos_left (hholds.size_pos ha) _))
  rw [joinedDistance, ← ofNat_mul, div_mul_cancel₀ _ hpos.ne']

/-- **A merge of the closest pair keeps all others apart** by at least its distance. -/
theorem Apart.join (h : s.Apart linkage bound) (hholds : s.Holds n members) (hshaped : s.Shaped n)
    (hroots : linkage = .ward → ExactRoots K) (hclosest : s.IsClosest a b)
    (hpos : 0 ≤ s.distances.get a b) :
    (s.join linkage a b newId).Apart linkage (s.distances.get a b) := by
  have ha := hclosest.left
  have hb := hclosest.right
  have hab := hclosest.ordered.ne
  refine ⟨?_, ?_⟩
  · intro i j hactive hactive' hij
    obtain ⟨hi, hib⟩ := (isActive_join ha hb).mp hactive
    obtain ⟨hj, hjb⟩ := (isActive_join ha hb).mp hactive'
    rw [distance_join hshaped ha hb hi hj hib hjb hij]
    refine of_newRow hi hj hib hjb hij (fun k hk hka hkb => ?_) (hclosest.le hshaped hi hj hij)
    exact h.le_joinedDistance hholds hshaped hroots hclosest hpos (mem_others.mpr ⟨hk, hka, hkb⟩)
  · intro heq i j hactive hactive' hij
    subst heq
    obtain ⟨hi, hib⟩ := (isActive_join ha hb).mp hactive
    obtain ⟨hj, hjb⟩ := (isActive_join ha hb).mp hactive'
    rw [sum_join_average hshaped ha hb hi hj hib hjb hij,
      distance_join hshaped ha hb hi hj hib hjb hij, sizeAt_join ha hb hib, sizeAt_join ha hb hjb]
    by_cases hia : i = a
    · have hja : j ≠ a := fun hja => hij (hia.trans hja.symm)
      rw [if_pos hia, if_pos hia, if_pos hia, if_neg hja, joinedSum_eq hholds ha hj]
      exact congrArg _ (mul_comm _ _)
    · rw [if_neg hia, if_neg hia, if_neg hia]
      by_cases hja : j = a
      · rw [if_pos hja, if_pos hja, if_pos hja, joinedSum_eq hholds ha hi]
      · rw [if_neg hja, if_neg hja, if_neg hja, h.sum_eq rfl i j hi hj hij]

end join

end Clusters

namespace Agglomeration

variable {K : Type} [ExactField K] {linkage : Linkage} {m : ScoreMatrix K}
  {merges : List (Merge K)} {members : Nat → Finset Nat} {s : Agglomeration K}

/-- Exact distances can always be compared. -/
theorem Run.isClosest (h : Run linkage m merges members s) {a : Nat} {near : Neighbour K}
    (hpair : s.closestPair? = some (a, near)) : s.clusters.IsClosest a near.slot := by
  have hcomparable : ∀ s : Agglomeration K, s.clusters.Comparable := fun _ _ _ _ _ _ => rfl
  have hfresh : s.Fresh := h.fresh fun _ _ s _ => hcomparable s
  exact hfresh.isClosest h.sound.anchored (hcomparable s) hpair

/-- **Along a run** distances stay at or above a bound that no merge so far exceeds. -/
theorem Run.apart (h : Run linkage m merges members s) (hvalid : m.validate = .ok ())
    (hroots : linkage = .ward → ExactRoots K) :
    ∃ bound : K, 0 ≤ bound ∧ s.clusters.Apart linkage bound ∧
      (∀ merge ∈ merges, merge.distance ≤ bound) ∧
      merges.Pairwise fun x y => x.distance ≤ y.distance := by
  induction h with
  | start => exact ⟨0, le_rfl, Clusters.apart_singletons linkage hvalid, by simp, by simp⟩
  | @merge merges members s a near hrun hpair ih =>
      obtain ⟨bound, hpos, hapart, hbelow, hsorted⟩ := ih
      have hclosest := hrun.isClosest hpair
      have hle := hapart.bound_le a near.slot hclosest.left hclosest.right hclosest.ordered.ne
      have hmerges : ∀ merge ∈ merges,
          merge.distance ≤ (s.clusters.mergeRecord a near.slot).distance :=
        fun merge hmerge => (hbelow merge hmerge).trans hle
      refine ⟨s.clusters.distances.get a near.slot, hpos.trans hle,
        hapart.join hrun.sound.holds hrun.sound.shaped hroots hclosest (hpos.trans hle), ?_, ?_⟩
      · intro merge hmerge
        rcases List.mem_append.mp hmerge with hmerge | hmerge
        · exact hmerges merge hmerge
        · rw [List.mem_singleton.mp hmerge]
          exact le_rfl
      · rw [List.pairwise_append]
        refine ⟨hsorted, by simp, ?_⟩
        intro x hx y hy
        rw [List.mem_singleton.mp hy]
        exact hmerges x hx

end Agglomeration

/-- **Merge distances never decrease**, and a run with Ward linkage takes no root of anything below
the square of the distance of the two clusters it merges, so raising to zero changes nothing. Square
roots have to be exact for Ward linkage only. -/
theorem Dendrogram.ofMatrix_monotone {K : Type} [ExactField K] (linkage : Linkage)
    (m : ScoreMatrix K) (hroots : linkage = .ward → ExactRoots K) (hvalid : m.validate = .ok ()) :
    (∃ tree, ofMatrix linkage m = .ok tree ∧
      ∀ k x y, tree.merges[k]? = some x → tree.merges[k + 1]? = some y →
        x.distance ≤ y.distance) ∧
    (linkage = .ward → ∀ merges members s, Agglomeration.Run linkage m merges members s →
      ∀ a near, s.closestPair? = some (a, near) → ∀ k ∈ s.clusters.others a near.slot,
        ∃ squared, s.clusters.joinedDistance linkage a near.slot k =
            sqrt (maximum squared zero) ∧
          squared = Clusters.wardSquared (s.clusters.distances.get k a)
            (s.clusters.distances.get k near.slot) (s.clusters.distances.get a near.slot)
            (s.clusters.sizeAt a) (s.clusters.sizeAt near.slot) (s.clusters.sizeAt k) ∧
          s.clusters.distances.get a near.slot * s.clusters.distances.get a near.slot ≤ squared ∧
          maximum squared zero = squared) := by
  constructor
  · obtain ⟨merges, members, s, htree, hrun, -⟩ := run_ofMatrix linkage hvalid
    obtain ⟨-, -, -, -, hsorted⟩ := hrun.apart hvalid hroots
    refine ⟨_, htree, ?_⟩
    intro k x y hx hy
    obtain ⟨hk, rfl⟩ := List.getElem?_eq_some_iff.mp hx
    obtain ⟨hk', rfl⟩ := List.getElem?_eq_some_iff.mp hy
    exact List.pairwise_iff_getElem.mp hsorted k (k + 1) hk hk' (Nat.lt_succ_self k)
  · intro heq merges members s hrun a near hpair k hk
    subst heq
    obtain ⟨bound, hpos, hapart, -, -⟩ := hrun.apart hvalid hroots
    have hclosest := hrun.isClosest hpair
    have hle := hapart.bound_le a near.slot hclosest.left hclosest.right hclosest.ordered.ne
    have hsquare := hclosest.le_wardSquared hrun.sound.shaped hrun.sound.holds (hpos.trans hle) hk
    exact ⟨_, rfl, rfl, hsquare, Clusters.maximum_eq_of_le hsquare⟩

section witness

variable {K : Type} [ExactField K]

theorem ScoreMatrix.isAsymmetric_self (x : K) : isAsymmetric x x = false := by
  have hzero : magnitude (x - x) = (0 : K) := by
    have hsub : x - x = (0 : K) := sub_self x
    show max (x - x) (-(x - x)) = 0
    rw [hsub, neg_zero, max_self]
  have hslack : (0 : K) ≤ 1 / 10 ^ 12 := by positivity
  refine decide_eq_false (not_lt.mpr ?_)
  rw [hzero]
  exact mul_nonneg hslack (zero_le_one.trans (le_max_right _ _))

/-- Three blocks, two of them closer to each other than to the third one. -/
def ScoreMatrix.threeBlocks (K : Type) [ExactField K] : ScoreMatrix K where
  ids := [⟨"a"⟩, ⟨"b"⟩, ⟨"c"⟩]
  values := #[0, 1, 1 + 1, 1, 0, 1 + 1, 1 + 1, 1 + 1, 0]

theorem ScoreMatrix.threeBlocks_valid : (threeBlocks K).validate = .ok () := by
  have hzero : eq (0 : K) zero = true := decide_eq_true rfl
  have hone : lt (1 : K) zero = false := decide_eq_false (not_lt.mpr zero_le_one)
  have htwo : lt (1 + 1 : K) zero = false :=
    decide_eq_false (not_lt.mpr (add_nonneg zero_le_one zero_le_one))
  have hfinite : ∀ x : K, isFinite x = true := fun _ => rfl
  rw [validate_eq_ok_iff]
  simp [defect?, rowDefect?, diagonalDefect?, pairDefect?, entryDefect?, cell?, size, threeBlocks,
    List.range_succ, List.range'_succ, hzero, hone, htwo, hfinite, isAsymmetric_self]

theorem Dendrogram.threeBlocks_monotone :
    ((ScoreMatrix.threeBlocks ℚ).validate = .ok () ∧
      ∃ tree, ofMatrix .average (ScoreMatrix.threeBlocks ℚ) = .ok tree ∧
        ∀ k x y, tree.merges[k]? = some x → tree.merges[k + 1]? = some y →
          x.distance ≤ y.distance) ∧
    (ScoreMatrix.threeBlocks ℝ).validate = .ok () ∧ ExactRoots ℝ ∧
      ∃ a near, (Agglomeration.start (ScoreMatrix.threeBlocks ℝ)).closestPair? = some (a, near) ∧
        ∃ k ∈ (Agglomeration.start (ScoreMatrix.threeBlocks ℝ)).clusters.others a near.slot,
        ∃ squared : ℝ, 0 ≤ squared ∧
          (Agglomeration.start (ScoreMatrix.threeBlocks ℝ)).clusters.joinedDistance .ward a
            near.slot k = Real.sqrt squared := by
  have hrational := ofMatrix_monotone .average (ScoreMatrix.threeBlocks ℚ) (fun h => nomatch h)
    ScoreMatrix.threeBlocks_valid
  have hreal := ofMatrix_monotone .ward (ScoreMatrix.threeBlocks ℝ) (fun _ => exactRoots_real)
    ScoreMatrix.threeBlocks_valid
  refine ⟨⟨ScoreMatrix.threeBlocks_valid, hrational.1⟩, ScoreMatrix.threeBlocks_valid,
    exactRoots_real, ?_⟩
  have hsound := Agglomeration.sound_start (ScoreMatrix.threeBlocks ℝ)
  have hthree : (Agglomeration.start (ScoreMatrix.threeBlocks ℝ)).clusters.active.length = 3 := by
    simp [Agglomeration.start, Clusters.active_singletons, ScoreMatrix.threeBlocks,
      ScoreMatrix.size]
  obtain ⟨a, near, hpair⟩ := hsound.closestPair?_isSome (by omega)
  obtain ⟨ha, hb, hab⟩ := hsound.closestPair?_active hpair
  have hothers := (Clusters.active_perm ha hb hab.ne).length_eq
  rw [hthree, List.length_cons, List.length_cons] at hothers
  have hpos : 0 < ((Agglomeration.start (ScoreMatrix.threeBlocks ℝ)).clusters.others a
      near.slot).length := by omega
  obtain ⟨k, hk⟩ := List.exists_mem_of_length_pos hpos
  obtain ⟨squared, hroot, -, hsquare, hmax⟩ := hreal.2 rfl _ _ _ .start a near hpair k hk
  rw [hmax] at hroot
  exact ⟨a, near, hpair, k, hk, squared, (mul_self_nonneg _).trans hsquare, hroot⟩

end witness

end BlockAffinity
