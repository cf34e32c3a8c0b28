import BlockAffinity.Proofs.Linkage.Binary

/-!
# BlockAffinity.Proofs.Linkage.Members

**Values between clusters as functions of their blocks.** A table of an agglomeration is kept by
slots, while what its values mean depends on the blocks in the slots. `Clusters.Relates` says that
every value of a table stands in a given relation to the blocks of its two slots.

Only the row of the new cluster changes in a step, so one statement about this row is enough to carry
the relation along a run (`Run.relates_sums`, `Run.relates_distances`). Merges record values of the
table of distances, so the relation then holds of every merge and the blocks below the two clusters
that it names (`Run.forall_merges`).
-/

namespace BlockAffinity

open Scalar

variable {α : Type}

/-- The distance of two different blocks. The upper triangle of the matrix counts. -/
def ScoreMatrix.pairDistance [Scalar α] (m : ScoreMatrix α) (x y : Nat) : α :=
  m.cell (min x y) (max x y)

theorem ScoreMatrix.pairDistance_comm [Scalar α] (m : ScoreMatrix α) (x y : Nat) :
    m.pairDistance x y = m.pairDistance y x := by
  rw [pairDistance, pairDistance, Nat.min_comm, Nat.max_comm]

theorem ScoreMatrix.pairDistance_of_lt [Scalar α] (m : ScoreMatrix α) {x y : Nat} (h : x < y) :
    m.pairDistance x y = m.cell x y := by
  rw [pairDistance, Nat.min_eq_left h.le, Nat.max_eq_right h.le]

namespace Clusters

/-- Each value of a table for two slots in use stands in the relation to the blocks in these
slots. -/
def Relates [Scalar α] (s : Clusters α) (members : Nat → Finset Nat) (t : SquareTable α)
    (R : Finset Nat → Finset Nat → α → Prop) : Prop :=
  ∀ i j, s.isActive i = true → s.isActive j = true → i ≠ j → R (members i) (members j) (t.get i j)

variable {s : Clusters α} {n a b newId : Nat} {linkage : Linkage} {members : Nat → Finset Nat}
  {R : Finset Nat → Finset Nat → α → Prop}

/-- What holds of the new row and of the old values holds after the row is written, with the blocks
of the slots after the merge. -/
theorem of_joinBlocks (hsymm : ∀ A B x, R A B x → R B A x) {f : Nat → α} {old : α} {i j : Nat}
    (hi : s.isActive i = true) (hj : s.isActive j = true) (hib : i ≠ b) (hjb : j ≠ b) (hij : i ≠ j)
    (hnew : ∀ k ∈ s.others a b, R (members k) (members a ∪ members b) (f k))
    (hold : R (members i) (members j) old) :
    R (joinBlocks members a b i) (joinBlocks members a b j)
      (if i = a then f j else if j = a then f i else old) := by
  by_cases hia : i = a
  · have hja : j ≠ a := fun hja => hij (hia.trans hja.symm)
    rw [if_pos hia, hia, joinBlocks_left, joinBlocks_other members hja hjb]
    exact hsymm _ _ _ (hnew j (mem_others.mpr ⟨hj, hja, hjb⟩))
  · rw [if_neg hia, joinBlocks_other members hia hib]
    by_cases hja : j = a
    · rw [if_pos hja, hja, joinBlocks_left]
      exact hnew i (mem_others.mpr ⟨hi, hia, hib⟩)
    · rw [if_neg hja, joinBlocks_other members hja hjb]
      exact hold

variable [Scalar α]

theorem relates_singletons {m : ScoreMatrix α}
    (h : ∀ x y, x < m.size → y < m.size → x ≠ y → R {x} {y} (m.pairDistance x y)) :
    (singletons m).Relates (fun i => {i}) (.ofPairs m.size m.cell) R := by
  intro i j hi hj hij
  have hi := (isActive_singletons m i).mp hi
  have hj := (isActive_singletons m j).mp hj
  rw [SquareTable.get_ofPairs hi hj hij]
  exact h i j hi hj hij

/-- A join keeps a relation of the distances if the new distances are in it. -/
theorem Relates.join_distances (h : s.Relates members s.distances R)
    (hsymm : ∀ A B x, R A B x → R B A x) (hshaped : s.Shaped n) (ha : s.isActive a = true)
    (hb : s.isActive b = true)
    (hnew : ∀ k ∈ s.others a b, R (members k) (members a ∪ members b)
      (s.joinedDistance linkage a b k)) :
    (s.join linkage a b newId).Relates (joinBlocks members a b)
      (s.join linkage a b newId).distances R := by
  intro i j hactive hactive' hij
  obtain ⟨hi, hib⟩ := (isActive_join ha hb).mp hactive
  obtain ⟨hj, hjb⟩ := (isActive_join ha hb).mp hactive'
  rw [distance_join hshaped ha hb hi hj hib hjb hij]
  exact of_joinBlocks hsymm hi hj hib hjb hij hnew (h i j hi hj hij)

/-- Average linkage keeps a relation of the sums if the new sums are in it. -/
theorem Relates.join_sums (h : s.Relates members s.sums R) (hsymm : ∀ A B x, R A B x → R B A x)
    (hshaped : s.Shaped n) (ha : s.isActive a = true) (hb : s.isActive b = true)
    (hnew : ∀ k ∈ s.others a b, R (members k) (members a ∪ members b) (s.joinedSum a b k)) :
    (s.join .average a b newId).Relates (joinBlocks members a b)
      (s.join .average a b newId).sums R := by
  intro i j hactive hactive' hij
  obtain ⟨hi, hib⟩ := (isActive_join ha hb).mp hactive
  obtain ⟨hj, hjb⟩ := (isActive_join ha hb).mp hactive'
  rw [sum_join_average hshaped ha hb hi hj hib hjb hij]
  exact of_joinBlocks hsymm hi hj hib hjb hij hnew (h i j hi hj hij)

end Clusters

namespace Agglomeration

open Dendrogram

variable [Scalar α] {linkage : Linkage} {m : ScoreMatrix α} {merges : List (Merge α)}
  {members : Nat → Finset Nat} {s : Agglomeration α} {R : Finset Nat → Finset Nat → α → Prop}

/-- **A relation of the distances holds along a run** if it holds of the matrix and every step brings
new distances that are in it. -/
theorem Run.relates_distances (hsymm : ∀ A B x, R A B x → R B A x)
    (hstart : ∀ x y, x < m.size → y < m.size → x ≠ y → R {x} {y} (m.pairDistance x y))
    (hstep : ∀ {merges members s a near}, Run linkage m merges members s →
      s.closestPair? = some (a, near) → s.clusters.Relates members s.clusters.distances R →
      ∀ k ∈ s.clusters.others a near.slot, R (members k) (members a ∪ members near.slot)
        (s.clusters.joinedDistance linkage a near.slot k))
    (h : Run linkage m merges members s) :
    s.clusters.Relates members s.clusters.distances R := by
  induction h with
  | start => exact Clusters.relates_singletons hstart
  | merge hrun hpair ih =>
      obtain ⟨ha, hb, -⟩ := hrun.sound.closestPair?_active hpair
      exact ih.join_distances hsymm hrun.sound.shaped ha hb (hstep hrun hpair ih)

/-- **A relation of the sums holds along a run** with average linkage if it holds of the matrix and
every step brings new sums that are in it. -/
theorem Run.relates_sums (hsymm : ∀ A B x, R A B x → R B A x)
    (hstart : ∀ x y, x < m.size → y < m.size → x ≠ y → R {x} {y} (m.pairDistance x y))
    (hstep : ∀ {merges members s a near}, Run .average m merges members s →
      s.closestPair? = some (a, near) → s.clusters.Relates members s.clusters.sums R →
      ∀ k ∈ s.clusters.others a near.slot, R (members k) (members a ∪ members near.slot)
        (s.clusters.joinedSum a near.slot k))
    (h : Run .average m merges members s) : s.clusters.Relates members s.clusters.sums R := by
  induction h with
  | start => exact Clusters.relates_singletons hstart
  | merge hrun hpair ih =>
      obtain ⟨ha, hb, -⟩ := hrun.sound.closestPair?_active hpair
      exact ih.join_sums hsymm hrun.sound.shaped ha hb (hstep hrun hpair ih)

/-- **Merges record distances between their blocks**: what relates the distances in every state of
a run relates each merge to the blocks below the two clusters that it names. -/
theorem Run.forall_merges (hsymm : ∀ A B x, R A B x → R B A x)
    (hrelates : ∀ {merges members s}, Run linkage m merges members s →
      s.clusters.Relates members s.clusters.distances R)
    (h : Run linkage m merges members s) : ∀ merge ∈ merges,
      R (leavesBelow ⟨m.size, merges⟩ merge.left) (leavesBelow ⟨m.size, merges⟩ merge.right)
        merge.distance := by
  induction h with
  | start => simp
  | @merge merges members s a near hrun hpair ih =>
      obtain ⟨ha, hb, hab⟩ := hrun.sound.closestPair?_active hpair
      have hhistory := hrun.history
      intro merge hmerge
      rcases List.mem_append.mp hmerge with hold | hnew
      · -- an earlier merge names clusters whose blocks are settled
        obtain ⟨k, hk⟩ := List.mem_iff_getElem?.mp hold
        have hlt : k < merges.length := (List.getElem?_eq_some_iff.mp hk).1
        obtain ⟨hleft, hright⟩ := hhistory.ordered k merge hk
        rw [leavesBelow_concat_of_lt _ (by omega), leavesBelow_concat_of_lt _ (by omega)]
        exact ih merge hold
      · obtain rfl := List.mem_singleton.mp hnew
        have hrecord := hrelates hrun a near.slot ha hb hab.ne
        have hleft := hhistory.idAt_lt ha
        have hright := hhistory.idAt_lt hb
        rcases mergeRecord_ends s.clusters a near.slot with ⟨hl, hr⟩ | ⟨hl, hr⟩
        · rw [hl, hr, leavesBelow_concat_of_lt _ hleft, leavesBelow_concat_of_lt _ hright,
            hhistory.leaves a ha, hhistory.leaves _ hb]
          exact hrecord
        · rw [hl, hr, leavesBelow_concat_of_lt _ hleft, leavesBelow_concat_of_lt _ hright,
            hhistory.leaves a ha, hhistory.leaves _ hb]
          exact hsymm _ _ _ hrecord

end Agglomeration

end BlockAffinity
