import Mathlib
import BlockAffinity.Proofs.Linkage.Between
import BlockAffinity.Proofs.Linkage.Cut

/-!
# BlockAffinity.Proofs.Linkage.Identical

**Identical blocks are never separated**, in exact arithmetic. Blocks at distance zero from each other
are taken to have equal rows (`ScoreMatrix.Identifies`), so they fall into classes. A run joins each of
these classes before it joins anything else.

* Two clusters that each lie within one class are at distance zero if it is the same class, and only
  then (`between_eq_zero_iff`): neither linkage makes up a zero or loses one.
* As long as there are more clusters than classes, two clusters share a class (`exists_identical`), so
  the closest pair is at distance zero (`Run.closest_identical`).
* Once there are as many clusters as classes, clusters and classes are the same
  (`Run.not_identical`), so the next merge has a positive distance, and with it all later ones.
-/

namespace BlockAffinity

open Scalar ExactField

/-! ### Classes of blocks -/

namespace ScoreMatrix

section classes

variable {K : Type} [ExactField K]

/-- The blocks at distance zero from a block. -/
def identicalTo (m : ScoreMatrix K) (x : Nat) : Finset Nat :=
  (Finset.range m.size).filter fun y => m.cell x y = 0

/-- Number of classes of blocks at distance zero from each other. -/
def classCount (m : ScoreMatrix K) : Nat := ((Finset.range m.size).image m.identicalTo).card

/-- A valid symmetric matrix in which blocks at distance zero from each other have equal rows. -/
structure Identifies (m : ScoreMatrix K) : Prop where
  valid : m.validate = .ok ()
  symmetric : m.IsSymmetric
  equal_rows : ∀ x y z, x < m.size → y < m.size → z < m.size → m.cell x y = 0 →
    m.cell x z = m.cell y z

/-- Any two blocks of the set are at distance zero. -/
def IsUniform (m : ScoreMatrix K) (A : Finset Nat) : Prop := ∀ x ∈ A, ∀ y ∈ A, m.cell x y = 0

variable {m : ScoreMatrix K} {x y z : Nat}

theorem mem_identicalTo : y ∈ m.identicalTo x ↔ y < m.size ∧ m.cell x y = 0 := by
  simp [identicalTo]

theorem Identifies.cell_comm (h : m.Identifies) (hx : x < m.size) (hy : y < m.size)
    (hxy : m.cell x y = 0) : m.cell y x = 0 := by
  rw [h.symmetric y x hy hx, hxy]

/-- Blocks at distance zero are so from the same blocks. -/
theorem Identifies.cell_eq_zero_iff (h : m.Identifies) {u v : Nat} (hx : x < m.size)
    (hy : y < m.size) (hu : u < m.size) (hv : v < m.size) (hxu : m.cell x u = 0)
    (hyv : m.cell y v = 0) : m.cell x y = m.cell u v := by
  rw [h.equal_rows x u y hx hu hy hxu, h.symmetric u y hu hy, h.equal_rows y v u hy hv hu hyv,
    h.symmetric v u hv hu]

theorem Identifies.identicalTo_eq_iff (h : m.Identifies) (hx : x < m.size) (hy : y < m.size) :
    m.identicalTo x = m.identicalTo y ↔ m.cell x y = 0 := by
  constructor
  · intro heq
    have hmem : y ∈ m.identicalTo y := mem_identicalTo.mpr ⟨hy, cell_self_of_valid h.valid hy⟩
    rw [← heq] at hmem
    exact (mem_identicalTo.mp hmem).2
  · intro hzero
    ext z
    rw [mem_identicalTo, mem_identicalTo]
    exact and_congr_right fun hz => by rw [h.equal_rows x y z hx hy hz hzero]

theorem classCount_le (m : ScoreMatrix K) : m.classCount ≤ m.size := by
  rw [classCount]
  exact Finset.card_image_le.trans_eq (Finset.card_range m.size)

theorem classCount_pos (hpos : 0 < m.size) : 0 < m.classCount :=
  Finset.card_pos.mpr ⟨_, Finset.mem_image_of_mem _ (Finset.mem_range.mpr hpos)⟩

end classes

end ScoreMatrix

/-! ### Clusters within classes -/

section between

variable {K : Type} [ExactField K] {f : Nat → Nat → K} {A B : Finset Nat} {c : K}

theorem crossSum_of_const (h : ∀ x ∈ A, ∀ y ∈ B, f x y = c) :
    crossSum f A B = A.card * B.card * c := by
  rw [crossSum, Finset.sum_congr rfl fun x hx => Finset.sum_congr rfl (h x hx)]
  simp [mul_assoc]

theorem innerSum_of_zero (h : ∀ x ∈ A, ∀ y ∈ A, f x y = 0) : innerSum f A = 0 :=
  Finset.sum_eq_zero fun x hx => Finset.sum_eq_zero fun y hy =>
    h x hx y (Finset.mem_filter.mp hy).1

theorem wardForm_of_const (hA : A.Nonempty) (hB : B.Nonempty) (hcross : ∀ x ∈ A, ∀ y ∈ B, f x y = c)
    (hleft : ∀ x ∈ A, ∀ y ∈ A, f x y = 0) (hright : ∀ x ∈ B, ∀ y ∈ B, f x y = 0) :
    wardForm f A B = (2 * A.card * B.card : ℕ) / (A.card + B.card) * c := by
  have hcard : (A.card : K) ≠ 0 := Nat.cast_ne_zero.mpr hA.card_ne_zero
  have hcard' : (B.card : K) ≠ 0 := Nat.cast_ne_zero.mpr hB.card_ne_zero
  rw [wardForm, innerSum_of_zero hleft, innerSum_of_zero hright, crossSum_of_const hcross,
    mul_div_cancel_left₀ _ (mul_ne_zero hcard hcard'), zero_div, zero_div, sub_zero, sub_zero]

/-- **Two clusters that each lie within a class** are at distance zero if it is the same class, and
only then. -/
theorem ScoreMatrix.Identifies.between_eq_zero_iff {m : ScoreMatrix K} {linkage : Linkage}
    (h : m.Identifies) (hroots : linkage = .ward → ExactRoots K) (hA : ∀ x ∈ A, x < m.size)
    (hB : ∀ x ∈ B, x < m.size) (huniform : m.IsUniform A) (huniform' : m.IsUniform B) {x y : Nat}
    (hx : x ∈ A) (hy : y ∈ B) : linkage.between m.pairDistance A B = 0 ↔ m.cell x y = 0 := by
  have hconst : ∀ u ∈ A, ∀ v ∈ B, m.pairDistance u v = m.cell x y := by
    intro u hu v hv
    rw [pairDistance_eq_cell h.symmetric (hA u hu) (hB v hv)]
    exact h.cell_eq_zero_iff (hA u hu) (hB v hv) (hA x hx) (hB y hy) (huniform u hu x hx)
      (huniform' v hv y hy)
  cases linkage with
  | average =>
      have hcard : (A.card : K) ≠ 0 := Nat.cast_ne_zero.mpr (Finset.card_ne_zero_of_mem hx)
      have hcard' : (B.card : K) ≠ 0 := Nat.cast_ne_zero.mpr (Finset.card_ne_zero_of_mem hy)
      rw [Linkage.between, crossSum_of_const hconst, mul_div_cancel_left₀ _ (mul_ne_zero hcard hcard')]
  | ward =>
      have hinner {S : Finset Nat} (hS : ∀ x ∈ S, x < m.size) (hzero : m.IsUniform S) :
          ∀ u ∈ S, ∀ v ∈ S, m.pairDistance u v ^ 2 = 0 := by
        intro u hu v hv
        rw [pairDistance_eq_cell h.symmetric (hS u hu) (hS v hv), hzero u hu v hv, sq, mul_zero]
      have hform : wardForm (fun u v => m.pairDistance u v ^ 2) A B =
          (2 * A.card * B.card : ℕ) / (A.card + B.card) * m.cell x y ^ 2 :=
        wardForm_of_const ⟨x, hx⟩ ⟨y, hy⟩ (fun u hu v hv => by rw [hconst u hu v hv])
          (hinner hA huniform) (hinner hB huniform')
      have hfactor : (0 : K) < (2 * A.card * B.card : ℕ) / (A.card + B.card) := by
        have hpos := Finset.card_pos.mpr ⟨x, hx⟩
        have hpos' := Finset.card_pos.mpr ⟨y, hy⟩
        positivity
      obtain ⟨-, hroot⟩ := hroots rfl _ (mul_nonneg hfactor.le (sq_nonneg (m.cell x y)))
      rw [Linkage.between, hform]
      constructor
      · intro hzero
        rw [hzero, mul_zero, eq_comm, mul_eq_zero, or_iff_right hfactor.ne'] at hroot
        exact pow_eq_zero_iff two_ne_zero |>.mp hroot
      · intro hzero
        rw [hzero, sq, mul_zero, mul_zero] at hroot ⊢
        exact mul_self_eq_zero.mp hroot

end between

/-! ### Along a run -/

namespace Agglomeration

variable {K : Type} [ExactField K] {linkage : Linkage} {m : ScoreMatrix K} {merges : List (Merge K)}
  {members : Nat → Finset Nat} {s : Agglomeration K}

/-- Every slot in use holds blocks of one class. -/
def Uniform (m : ScoreMatrix K) (members : Nat → Finset Nat) (s : Agglomeration K) : Prop :=
  ∀ i, s.clusters.isActive i = true → m.IsUniform (members i)

theorem Run.slot_lt (h : Run linkage m merges members s) {i : Nat}
    (hi : s.clusters.isActive i = true) : i < m.size :=
  h.sound.holds.mem_lt hi (h.sound.holds.first_mem hi)

theorem Run.card_active (h : Run linkage m merges members s) :
    s.clusters.active.toFinset.card + merges.length = m.size := by
  rw [List.toFinset_card_of_nodup s.clusters.nodup_active, h.active_length]

/-- **More clusters than classes**: two of the clusters belong to one class. -/
theorem Run.exists_identical (hm : m.Identifies) (h : Run linkage m merges members s)
    (hlt : merges.length < m.size - m.classCount) :
    ∃ i j, s.clusters.isActive i = true ∧ s.clusters.isActive j = true ∧ i ≠ j ∧
      m.cell i j = 0 := by
  have hcard := h.card_active
  obtain ⟨i, hi, j, hj, hij, heq⟩ := Finset.exists_ne_map_eq_of_card_lt_of_maps_to
    (s := s.clusters.active.toFinset) (t := (Finset.range m.size).image m.identicalTo)
    (f := m.identicalTo) (show m.classCount < _ by omega) fun i hi =>
      Finset.mem_image_of_mem _ (Finset.mem_range.mpr
        (h.slot_lt (Clusters.mem_active.mp (List.mem_toFinset.mp hi))))
  have hi := Clusters.mem_active.mp (List.mem_toFinset.mp hi)
  have hj := Clusters.mem_active.mp (List.mem_toFinset.mp hj)
  exact ⟨i, j, hi, hj, hij, (hm.identicalTo_eq_iff (h.slot_lt hi) (h.slot_lt hj)).mp heq⟩

/-- **As many clusters as classes**: no two of the clusters belong to one class. -/
theorem Run.not_identical (hm : m.Identifies) (h : Run linkage m merges members s)
    (huniform : Uniform m members s) (hlength : merges.length = m.size - m.classCount) {i j : Nat}
    (hi : s.clusters.isActive i = true) (hj : s.clusters.isActive j = true)
    (hzero : m.cell i j = 0) : i = j := by
  have hcard := h.card_active
  have hle := m.classCount_le
  -- every block is in a slot of its class, so the slots meet all classes
  have hsurj : ∀ A ∈ (Finset.range m.size).image m.identicalTo,
      ∃ k, ∃ _ : k ∈ s.clusters.active.toFinset, m.identicalTo k = A := by
    intro A hA
    obtain ⟨x, hx, rfl⟩ := Finset.mem_image.mp hA
    have hx := Finset.mem_range.mp hx
    obtain ⟨k, hk, hxk⟩ := h.sound.holds.cover.mp hx
    exact ⟨k, List.mem_toFinset.mpr (Clusters.mem_active.mpr hk),
      (hm.identicalTo_eq_iff (h.slot_lt hk) hx).mpr
        (huniform k hk k (h.sound.holds.first_mem hk) x hxk)⟩
  refine Finset.inj_on_of_surj_on_of_card_le (fun k _ => m.identicalTo k) (fun k hk => ?_) hsurj ?_
    (List.mem_toFinset.mpr (Clusters.mem_active.mpr hi))
    (List.mem_toFinset.mpr (Clusters.mem_active.mpr hj))
    ((hm.identicalTo_eq_iff (h.slot_lt hi) (h.slot_lt hj)).mpr hzero)
  · exact Finset.mem_image_of_mem _ (Finset.mem_range.mpr
      (h.slot_lt (Clusters.mem_active.mp (List.mem_toFinset.mp hk))))
  · show _ ≤ m.classCount
    omega

variable (hroots : linkage = .ward → ExactRoots K) (hm : m.Identifies)
include hroots hm

/-- Slots that hold blocks of one class are at distance zero if it is the same class. -/
theorem Run.distance_eq_zero_iff (h : Run linkage m merges members s)
    (huniform : Uniform m members s) {i j : Nat} (hi : s.clusters.isActive i = true)
    (hj : s.clusters.isActive j = true) (hij : i ≠ j) :
    s.clusters.distances.get i j = 0 ↔ m.cell i j = 0 := by
  have hholds := h.sound.holds
  rw [h.distances_eq_between hroots hm.valid i j hi hj hij]
  exact hm.between_eq_zero_iff hroots (fun x hx => hholds.mem_lt hi hx)
    (fun x hx => hholds.mem_lt hj hx) (huniform i hi) (huniform j hj) (hholds.first_mem hi)
    (hholds.first_mem hj)

/-- **The closest pair is of one class** as long as there are more clusters than classes. -/
theorem Run.closest_identical (h : Run linkage m merges members s)
    (huniform : Uniform m members s) (hlt : merges.length < m.size - m.classCount) {a : Nat}
    {near : Neighbour K} (hpair : s.closestPair? = some (a, near)) :
    s.clusters.distances.get a near.slot = 0 := by
  obtain ⟨i, j, hi, hj, hij, hzero⟩ := h.exists_identical hm hlt
  have hclosest := h.isClosest hpair
  refine le_antisymm ?_ (h.distances_nonneg hroots hm.valid a near.slot hclosest.left
    hclosest.right hclosest.ordered.ne)
  rw [← (h.distance_eq_zero_iff hroots hm huniform hi hj hij).mpr hzero]
  exact hclosest.le h.sound.shaped hi hj hij

/-- **Up to there, no cluster reaches beyond a class.** -/
theorem Run.uniform (h : Run linkage m merges members s)
    (hle : merges.length ≤ m.size - m.classCount) : Uniform m members s := by
  induction h with
  | start =>
      intro i hi x hx y hy
      rw [Finset.mem_singleton.mp hx, Finset.mem_singleton.mp hy]
      exact ScoreMatrix.cell_self_of_valid hm.valid ((Clusters.isActive_singletons m i).mp hi)
  | @merge merges members s a near hrun hpair ih =>
      rw [List.length_append, List.length_singleton] at hle
      have huniform := ih (by omega)
      obtain ⟨ha, hb, hab⟩ := hrun.sound.closestPair?_active hpair
      have hzero := (hrun.distance_eq_zero_iff hroots hm huniform ha hb hab.ne).mp
        (hrun.closest_identical hroots hm huniform (by omega) hpair)
      have hholds := hrun.sound.holds
      intro i hactive x hx y hy
      obtain ⟨hi, hib⟩ := (Clusters.isActive_join ha hb).mp hactive
      -- each block comes from a slot of its class, and these slots are the same or the closest pair
      obtain ⟨k, hk, hxk, hik⟩ := (Clusters.mem_joinBlocks_iff ha hb hi hib).mp hx
      obtain ⟨l, hl, hyl, hil⟩ := (Clusters.mem_joinBlocks_iff ha hb hi hib).mp hy
      rw [hm.cell_eq_zero_iff (hholds.mem_lt hk hxk) (hholds.mem_lt hl hyl) (hrun.slot_lt hk)
        (hrun.slot_lt hl) (huniform k hk x hxk k (hholds.first_mem hk))
        (huniform l hl y hyl l (hholds.first_mem hl))]
      have hcases : k = l ∨ k = a ∧ l = near.slot ∨ k = near.slot ∧ l = a := by
        split_ifs at hik hil <;> omega
      rcases hcases with rfl | ⟨rfl, rfl⟩ | ⟨rfl, rfl⟩
      · exact ScoreMatrix.cell_self_of_valid hm.valid (hrun.slot_lt hk)
      · exact hzero
      · exact hm.cell_comm (hrun.slot_lt ha) (hrun.slot_lt hb) hzero

/-- **The closest pair is at a positive distance** as soon as there are no more clusters than classes.
Once this is so, it stays so, because distances of merges never decrease. -/
theorem Run.closest_pos (h : Run linkage m merges members s)
    (hge : m.size - m.classCount ≤ merges.length)
    (hfirst : ∀ {merge}, merges[m.size - m.classCount]? = some merge → 0 < merge.distance) {a : Nat}
    {near : Neighbour K} (hpair : s.closestPair? = some (a, near)) :
    0 < s.clusters.distances.get a near.slot := by
  have hclosest := h.isClosest hpair
  have ha := hclosest.left
  have hb := hclosest.right
  have hab := hclosest.ordered.ne
  obtain ⟨bound, hnonneg, hapart, hbelow, -⟩ := h.apart hm.valid hroots
  have hbound := hapart.bound_le a near.slot ha hb hab
  rcases hge.eq_or_lt with heq | hlt
  · have huniform := h.uniform hroots hm heq.ge
    refine lt_of_le_of_ne (hnonneg.trans hbound) fun hzero => hab ?_
    exact h.not_identical hm huniform heq.symm ha hb
      ((h.distance_eq_zero_iff hroots hm huniform ha hb hab).mp hzero.symm)
  · have hk := List.getElem?_eq_getElem hlt
    exact (hfirst hk).trans_le ((hbelow _ (List.mem_of_getElem? hk)).trans hbound)

/-- **A run joins the classes first**: as many merges as there are blocks more than classes have
distance zero, and all others a positive one. -/
theorem Run.distance_eq_zero_or_pos (h : Run linkage m merges members s) {k : Nat} {merge : Merge K}
    (hk : merges[k]? = some merge) :
    (k < m.size - m.classCount → merge.distance = 0) ∧
      (m.size - m.classCount ≤ k → 0 < merge.distance) := by
  induction h generalizing k merge with
  | start => simp at hk
  | @merge merges members s a near hrun hpair ih =>
      have hclosest := hrun.isClosest hpair
      rcases Nat.lt_trichotomy k merges.length with hlt | heq | hgt
      · rw [List.getElem?_append_left hlt] at hk
        exact ih hk
      · rw [heq, List.getElem?_concat_length, Option.some.injEq] at hk
        have hdistance : merge.distance = s.clusters.distances.get a near.slot := by rw [← hk]; rfl
        rw [hdistance, heq]
        refine ⟨fun hlt => ?_, fun hge => ?_⟩
        · exact hrun.closest_identical hroots hm (hrun.uniform hroots hm hlt.le) hlt hpair
        · exact hrun.closest_pos hroots hm hge (fun hk => (ih hk).2 le_rfl) hpair
      · rw [List.getElem?_eq_none (by simpa using hgt)] at hk
        exact nomatch hk

/-- From there on, the blocks of a class are in one slot. -/
theorem Run.same_slot (h : Run linkage m merges members s)
    (hge : m.size - m.classCount ≤ merges.length) {x y : Nat} (hx : x < m.size) (hy : y < m.size)
    (hzero : m.cell x y = 0) : ∃ i, s.clusters.isActive i = true ∧ x ∈ members i ∧ y ∈ members i := by
  have hreached {merges members s} (h : Run linkage m merges members s)
      (heq : merges.length = m.size - m.classCount) :
      ∃ i, s.clusters.isActive i = true ∧ x ∈ members i ∧ y ∈ members i := by
    have huniform := h.uniform hroots hm heq.le
    have hholds := h.sound.holds
    obtain ⟨i, hi, hxi⟩ := hholds.cover.mp hx
    obtain ⟨j, hj, hyj⟩ := hholds.cover.mp hy
    rw [hm.cell_eq_zero_iff hx hy (h.slot_lt hi) (h.slot_lt hj)
      (huniform i hi x hxi i (hholds.first_mem hi)) (huniform j hj y hyj j (hholds.first_mem hj))]
      at hzero
    obtain rfl := h.not_identical hm huniform heq hi hj hzero
    exact ⟨i, hi, hxi, hyj⟩
  induction h with
  | start => exact hreached .start (Nat.le_zero.mp hge).symm
  | @merge merges members s a near hrun hpair ih =>
      rcases hge.eq_or_lt with heq | hlt
      · exact hreached (hrun.merge hpair) heq.symm
      · rw [List.length_append, List.length_singleton] at hlt
        obtain ⟨j, hj, hxj, hyj⟩ := ih (by omega)
        obtain ⟨ha, hb, hab⟩ := hrun.sound.closestPair?_active hpair
        obtain ⟨i, hi, hsubset⟩ := Clusters.exists_slot_join ha hb hab.ne hj
        exact ⟨i, hi, hsubset hxj, hsubset hyj⟩

end Agglomeration

namespace Dendrogram

variable {K : Type} [ExactField K] {linkage : Linkage} {m : ScoreMatrix K} {tree : Dendrogram K}
  (hroots : linkage = .ward → ExactRoots K) (hm : m.Identifies) (h : ofMatrix linkage m = .ok tree)
include hroots hm h

/-- Cutting at zero applies just the merges that join the classes, and cutting above it these and
perhaps more. -/
theorem length_appliedMerges_of_nonneg {threshold : K} (hnonneg : 0 ≤ threshold) :
    m.size - m.classCount ≤ (tree.appliedMerges threshold).length ∧
      (threshold = 0 → (tree.appliedMerges threshold).length = m.size - m.classCount) := by
  obtain ⟨-, hlength, members, s, hrun⟩ := run_of_ofMatrix h
  have hfew : m.size - m.classCount ≤ tree.merges.length := by
    rcases Nat.eq_zero_or_pos m.size with hzero | hpos
    · omega
    · have := ScoreMatrix.classCount_pos hpos
      omega
  have hdistance {k : Nat} (hk : k < tree.merges.length) :=
    hrun.distance_eq_zero_or_pos hroots hm (List.getElem?_eq_getElem hk)
  rw [length_appliedMerges]
  have hge : m.size - m.classCount ≤ tree.merges.findIdx fun merge => lt threshold merge.distance := by
    by_contra hlt
    rw [not_le] at hlt
    have habove : threshold < _ := of_decide_eq_true (List.findIdx_getElem (w := hlt.trans_le hfew))
    rw [(hdistance (hlt.trans_le hfew)).1 hlt] at habove
    exact absurd hnonneg habove.not_ge
  refine ⟨hge, fun hzero => le_antisymm ?_ hge⟩
  subst hzero
  by_contra hgt
  rw [not_le] at hgt
  have hpos := (hdistance (hgt.trans_le List.findIdx_le_length)).2 le_rfl
  exact absurd hpos (of_decide_eq_false (List.not_of_lt_findIdx hgt))

/-- **A cut separates no identical blocks**, and at zero it separates all others. -/
theorem exists_labels_of_identifies {threshold : K} (hnonneg : 0 ≤ threshold) :
    ∃ labels, tree.cut m.ids threshold = .ok (.ofLabels m.ids labels) ∧ labels.length = m.size ∧
      (∀ x y, x < m.size → y < m.size → m.cell x y = 0 → labels[x]? = labels[y]?) ∧
      (threshold = 0 → ∀ x y, x < m.size → y < m.size →
        (labels[x]? = labels[y]? ↔ m.cell x y = 0)) := by
  obtain ⟨members, s, labels, hrun, hcut, hlength, hlabels⟩ :=
    exists_labels_of_ofMatrix h (show isNaN threshold = false from rfl)
  obtain ⟨hge, hzero⟩ := length_appliedMerges_of_nonneg hroots hm h hnonneg
  refine ⟨labels, hcut, hlength, fun x y hx hy hxy => ?_, fun hthreshold x y hx hy => ?_⟩
  · exact (hlabels x y hx hy).mpr (hrun.same_slot hroots hm hge hx hy hxy)
  · rw [hlabels x y hx hy]
    constructor
    · intro hexists
      obtain ⟨i, hi, hxi, hyi⟩ := hexists
      exact hrun.uniform hroots hm (hzero hthreshold).le i hi x hxi y hyi
    · exact hrun.same_slot hroots hm hge hx hy

end Dendrogram

/-- **Identical blocks are never separated.** In a valid symmetric matrix in which blocks at distance
zero from each other have equal rows, let these blocks form classes. Then the first merges, as many as
there are blocks more than classes, have distance zero, and all later ones a positive distance. A cut
at a threshold that is not negative gives identical blocks the same label, and the cut at zero gives
the same label to no others. The label of a block is the one at its place, if no id occurs twice. -/
theorem Dendrogram.identical_joined_first {K : Type} [ExactField K] (linkage : Linkage)
    (m : ScoreMatrix K) (hroots : linkage = .ward → ExactRoots K) (hvalid : m.validate = .ok ())
    (hsymm : m.IsSymmetric)
    (hrows : ∀ x y z, x < m.size → y < m.size → z < m.size → m.cell x y = 0 →
      m.cell x z = m.cell y z) :
    ∃ tree, ofMatrix linkage m = .ok tree ∧ tree.merges.length = m.size - 1 ∧
      (∀ k merge, tree.merges[k]? = some merge →
        (k < m.size - m.classCount → merge.distance = 0) ∧
        (m.size - m.classCount ≤ k → 0 < merge.distance)) ∧
      ∀ threshold, 0 ≤ threshold →
        ∃ labels, tree.cut m.ids threshold = .ok (.ofLabels m.ids labels) ∧
          labels.length = m.size ∧
          (∀ x y, x < m.size → y < m.size → m.cell x y = 0 → labels[x]? = labels[y]?) ∧
          (threshold = 0 → ∀ x y, x < m.size → y < m.size →
            (labels[x]? = labels[y]? ↔ m.cell x y = 0)) ∧
          (m.ids.Nodup → ∀ (x : Nat) id, m.ids[x]? = some id →
            (Assignment.ofLabels m.ids labels).get? id = labels[x]?) := by
  have hm : m.Identifies := ⟨hvalid, hsymm, hrows⟩
  obtain ⟨merges, members, s, htree, hrun, hlength⟩ := run_ofMatrix linkage hvalid
  refine ⟨_, htree, hlength, fun k merge hk => ?_, fun threshold hnonneg => ?_⟩
  · exact hrun.distance_eq_zero_or_pos hroots hm hk
  · obtain ⟨labels, hcut, hcount, hsame, hzero⟩ :=
      exists_labels_of_identifies hroots hm htree hnonneg
    exact ⟨labels, hcut, hcount, hsame, hzero, fun hids x id hx =>
      Assignment.get?_ofLabels hids hcount.symm hx⟩

section witness

variable (K : Type) [ExactField K]

/-- Two identical blocks and a third one. -/
def ScoreMatrix.twoIdentical : ScoreMatrix K where
  ids := [⟨"a"⟩, ⟨"b"⟩, ⟨"c"⟩]
  values := #[0, 0, 1, 0, 0, 1, 1, 1, 0]

theorem ScoreMatrix.twoIdentical_identifies : (twoIdentical K).Identifies where
  valid := by
    have hzero : eq (0 : K) zero = true := decide_eq_true rfl
    have hnone : lt (0 : K) zero = false := decide_eq_false (lt_irrefl 0)
    have hone : lt (1 : K) zero = false := decide_eq_false (not_lt.mpr zero_le_one)
    have hfinite : ∀ x : K, isFinite x = true := fun _ => rfl
    rw [validate_eq_ok_iff]
    simp [defect?, rowDefect?, diagonalDefect?, pairDefect?, entryDefect?, cell?, size, twoIdentical,
      List.range_succ, List.range'_succ, hzero, hnone, hone, hfinite, isAsymmetric_self]
  symmetric := by
    intro i j hi hj
    change i < 3 at hi
    change j < 3 at hj
    interval_cases i <;> interval_cases j <;> rfl
  equal_rows := by
    intro x y z hx hy hz hxy
    change x < 3 at hx
    change y < 3 at hy
    change z < 3 at hz
    have hone : (1 : K) ≠ 0 := one_ne_zero
    -- the rows of the first two blocks are equal, and the third one has no zero but its own
    interval_cases x <;> interval_cases y <;> first
      | exact absurd hxy hone
      | (interval_cases z <;> rfl)

end witness

/-- Both linkages join the two blocks at zero, and the cut at zero keeps the third one apart. -/
theorem Dendrogram.twoIdentical_joined_first :
    (ScoreMatrix.twoIdentical ℚ).Identifies ∧ (ScoreMatrix.twoIdentical ℚ).classCount = 2 ∧
    (∃ tree, ofMatrix .average (ScoreMatrix.twoIdentical ℚ) = .ok tree ∧
      ∀ first last, tree.merges = [first, last] → first.distance = 0 ∧ 0 < last.distance) ∧
    (ScoreMatrix.twoIdentical ℝ).Identifies ∧ ExactRoots ℝ ∧
    ∃ tree labels, ofMatrix .ward (ScoreMatrix.twoIdentical ℝ) = .ok tree ∧
      tree.cut (ScoreMatrix.twoIdentical ℝ).ids 0 =
        .ok (.ofLabels (ScoreMatrix.twoIdentical ℝ).ids labels) ∧
      labels[0]? = labels[1]? ∧ labels[0]? ≠ labels[2]? := by
  have hrational := ScoreMatrix.twoIdentical_identifies ℚ
  have hreal := ScoreMatrix.twoIdentical_identifies ℝ
  have hcount : (ScoreMatrix.twoIdentical ℚ).classCount = 2 := by decide +kernel
  obtain ⟨tree, htree, -, hmerges, -⟩ := identical_joined_first .average _ (fun heq => nomatch heq)
    hrational.valid hrational.symmetric hrational.equal_rows
  obtain ⟨tree', htree', -, -, hcuts⟩ := identical_joined_first .ward _ (fun _ => exactRoots_real)
    hreal.valid hreal.symmetric hreal.equal_rows
  obtain ⟨labels, hcut, -, hsame, hzero, -⟩ := hcuts 0 le_rfl
  refine ⟨hrational, hcount, ⟨tree, htree, fun first last heq => ?_⟩, hreal, exactRoots_real, tree',
    labels, htree', hcut, hsame 0 1 (by decide) (by decide) rfl, ?_⟩
  · have hsize : (ScoreMatrix.twoIdentical ℚ).size = 3 := rfl
    rw [hcount, hsize] at hmerges
    exact ⟨(hmerges 0 first (by rw [heq]; rfl)).1 (by decide),
      (hmerges 1 last (by rw [heq]; rfl)).2 le_rfl⟩
  · rw [Ne, hzero rfl 0 2 (by decide) (by decide)]
    exact one_ne_zero

end BlockAffinity
