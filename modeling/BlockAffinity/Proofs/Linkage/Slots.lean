import BlockAffinity.Linkage.Clusters
import BlockAffinity.Proofs.SquareTable
import Mathlib.Data.Finset.Card

/-!
# BlockAffinity.Proofs.Linkage.Slots

**What a merge does to the slots.** `Clusters.join` is opened here once: for each thing that can be
read from clusters (which slots are in use, number and size of a cluster, distance and sum of two
slots) there is one equation for the clusters after the join, under `Shaped`, which says that the
arrays have the lengths they should and that the two sides of the diagonal agree.

A join enters the row of the new cluster slot by slot, and each slot reads the tables as the slots
before have left them. No slot reads what another one writes (`joinedDistance_enterUnion`), so the row
can be given in terms of the clusters before the join (`foldl_enterUnion`).

`Holds` ties the slots to the blocks: the slots in use hold a partition of the blocks, and each slot
in use is the first block of its cluster.
-/

namespace BlockAffinity

namespace Clusters

variable {α : Type}

/-! ### Slots in use -/

/-- All arrays are as long as there are blocks, and both tables hold the same on the two sides of the
diagonal. -/
structure Shaped (s : Clusters α) (n : Nat) : Prop where
  slotCount_eq : s.slotCount = n
  distances : s.distances.Mirrored n
  sums : s.sums.Mirrored n

theorem isActive_lt {s : Clusters α} {i : Nat} (h : s.isActive i = true) : i < s.slotCount := by
  by_contra hge
  have hnone : s.cluster? i = none := by
    simp [cluster?, Array.getD_eq_getD_getElem?, Array.getElem?_eq_none (Nat.le_of_not_lt hge)]
  simp [isActive, hnone] at h

theorem Shaped.active_lt {s : Clusters α} {n i : Nat} (h : s.Shaped n) (hi : s.isActive i = true) :
    i < n :=
  h.slotCount_eq ▸ isActive_lt hi

/-- The distance of two slots in use is the same whichever of them is named first. -/
theorem Shaped.distance_comm [Scalar α] {s : Clusters α} {n i j : Nat} (h : s.Shaped n)
    (hi : s.isActive i = true) (hj : s.isActive j = true) :
    s.distances.get i j = s.distances.get j i :=
  h.distances.get_comm (h.active_lt hi) (h.active_lt hj)

@[simp] theorem mem_active {s : Clusters α} {i : Nat} : i ∈ s.active ↔ s.isActive i = true := by
  simp only [active, List.mem_filter, List.mem_range, and_iff_right_iff_imp]
  exact isActive_lt

theorem nodup_active (s : Clusters α) : s.active.Nodup := List.nodup_range.filter _

theorem pairwise_active (s : Clusters α) : s.active.Pairwise (· < ·) :=
  List.pairwise_lt_range.filter _

@[simp] theorem mem_activeAbove {s : Clusters α} {i j : Nat} :
    j ∈ s.activeAbove i ↔ i < j ∧ s.isActive j = true := by
  simp only [activeAbove, List.mem_filter, List.mem_range'_1]
  constructor
  · intro hboth
    obtain ⟨⟨hij, -⟩, hj⟩ := hboth
    exact ⟨by omega, hj⟩
  · intro hboth
    obtain ⟨hij, hj⟩ := hboth
    have := isActive_lt hj
    exact ⟨by omega, hj⟩

theorem pairwise_activeAbove (s : Clusters α) (i : Nat) : (s.activeAbove i).Pairwise (· < ·) :=
  (List.pairwise_lt_range' 1).filter _

@[simp] theorem mem_others {s : Clusters α} {a b k : Nat} :
    k ∈ s.others a b ↔ s.isActive k = true ∧ k ≠ a ∧ k ≠ b := by
  simp [others]

theorem nodup_others (s : Clusters α) (a b : Nat) : (s.others a b).Nodup := s.nodup_active.filter _

/-- The slots in use are the two that are merged and the others. -/
theorem active_perm {s : Clusters α} {a b : Nat} (ha : s.isActive a = true)
    (hb : s.isActive b = true) (hab : a ≠ b) : s.active.Perm (a :: b :: s.others a b) := by
  refine (List.perm_ext_iff_of_nodup s.nodup_active ?_).mpr ?_
  · simp only [List.nodup_cons, List.mem_cons, mem_others]
    exact ⟨by simp [hab], by simp, s.nodup_others a b⟩
  · intro k
    simp only [mem_active, List.mem_cons, mem_others]
    constructor
    · intro hk
      by_cases hka : k = a
      · exact Or.inl hka
      · by_cases hkb : k = b
        · exact Or.inr (Or.inl hkb)
        · exact Or.inr (Or.inr ⟨hk, hka, hkb⟩)
    · intro hcases
      rcases hcases with rfl | rfl | ⟨hk, -⟩
      · exact ha
      · exact hb
      · exact hk

/-! ### The start -/

section singletons

variable [Scalar α] (m : ScoreMatrix α)

theorem shaped_singletons : (singletons m).Shaped m.size :=
  ⟨by simp [singletons, slotCount], SquareTable.mirrored_ofPairs _ _, SquareTable.mirrored_ofPairs _ _⟩

theorem cluster?_singletons (i : Nat) :
    (singletons m).cluster? i = if i < m.size then some ⟨i, 1⟩ else none := by
  by_cases hi : i < m.size <;>
    simp [singletons, cluster?, Array.getD_eq_getD_getElem?, hi]

@[simp] theorem isActive_singletons (i : Nat) :
    (singletons m).isActive i = true ↔ i < m.size := by
  rw [isActive, cluster?_singletons]
  split <;> simp_all

theorem idAt_singletons {i : Nat} (hi : i < m.size) : (singletons m).idAt i = i := by
  simp [idAt, cluster?_singletons, hi]

theorem sizeAt_singletons {i : Nat} (hi : i < m.size) : (singletons m).sizeAt i = 1 := by
  simp [sizeAt, cluster?_singletons, hi]

theorem active_singletons : (singletons m).active = List.range m.size := by
  rw [active, (shaped_singletons m).slotCount_eq, List.filter_eq_self]
  simp

/-- Distances start from the upper triangle of the matrix. -/
theorem distance_singletons {i j : Nat} (hi : i < m.size) (hj : j < m.size) (hij : i ≠ j) :
    (singletons m).distances.get i j = m.cell (min i j) (max i j) :=
  SquareTable.get_ofPairs hi hj hij

end singletons

/-! ### The row of the new cluster -/

section enterUnion

variable [Scalar α] {s : Clusters α} {n a b k : Nat} {linkage : Linkage}

@[simp] theorem slots_enterUnion : (s.enterUnion linkage a b k).slots = s.slots := by
  cases linkage <;> rfl

theorem distances_enterUnion :
    (s.enterUnion linkage a b k).distances =
      s.distances.setPair k a (s.joinedDistance linkage a b k) := by
  cases linkage <;> rfl

@[simp] theorem sizeAt_enterUnion {i : Nat} :
    (s.enterUnion linkage a b k).sizeAt i = s.sizeAt i := by
  rw [sizeAt, cluster?, slots_enterUnion, sizeAt, cluster?]

theorem slots_foldl_enterUnion (ks : List Nat) :
    (ks.foldl (enterUnion linkage a b) s).slots = s.slots := by
  induction ks generalizing s with
  | nil => rfl
  | cons k ks ih => rw [List.foldl_cons, ih, slots_enterUnion]

theorem Shaped.enterUnion (h : s.Shaped n) (ha : a < n) (hk : k < n) :
    (s.enterUnion linkage a b k).Shaped n where
  slotCount_eq := by rw [slotCount, slots_enterUnion, ← slotCount, h.slotCount_eq]
  distances := by
    rw [distances_enterUnion]
    exact h.distances.setPair hk ha
  sums := by
    cases linkage with
    | average => exact h.sums.setPair hk ha
    | ward => exact h.sums

/-- What is entered for one slot is not read for another one. -/
theorem Shaped.joinedSum_enterUnion (h : s.Shaped n) (ha : a < n) (hb : b < n) (hk : k < n) {l : Nat}
    (hkl : k ≠ l) (hka : k ≠ a) (hkb : k ≠ b) (hla : l ≠ a) :
    (s.enterUnion linkage a b k).joinedSum a b l = s.joinedSum a b l := by
  cases linkage with
  | average =>
      have hget {i : Nat} (hi : i < n) (value : α) : (s.sums.setPair k a value).get l i = s.sums.get l i :=
        h.sums.toFull.get_setPair_of_ne hk ha hi (by omega)
      simp only [joinedSum, Clusters.enterUnion, hget ha, hget hb]
  | ward => rfl

theorem Shaped.joinedDistance_enterUnion (h : s.Shaped n) (ha : a < n) (hb : b < n) (hk : k < n)
    {l : Nat} (hkl : k ≠ l) (hka : k ≠ a) (hkb : k ≠ b) (hla : l ≠ a) :
    (s.enterUnion linkage a b k).joinedDistance linkage a b l = s.joinedDistance linkage a b l := by
  have hget {i j : Nat} (hj : j < n) (hne : ¬((k = i ∧ a = j) ∨ (a = i ∧ k = j))) :
      (s.enterUnion linkage a b k).distances.get i j = s.distances.get i j := by
    rw [distances_enterUnion]
    exact h.distances.toFull.get_setPair_of_ne hk ha hj hne
  cases linkage with
  | average =>
      simp only [joinedDistance, sizeAt_enterUnion, h.joinedSum_enterUnion ha hb hk hkl hka hkb hla]
  | ward =>
      simp only [joinedDistance, sizeAt_enterUnion]
      rw [hget ha (by omega), hget hb (by omega), hget hb (by omega)]

/-- **The row of the new cluster** holds what the clusters before the join give. -/
theorem Shaped.foldl_enterUnion (h : s.Shaped n) (ha : a < n) (hb : b < n) {ks : List Nat}
    (hnodup : ks.Nodup) (hks : ∀ k ∈ ks, k < n ∧ k ≠ a ∧ k ≠ b) :
    ks.foldl (Clusters.enterUnion linkage a b) s =
      { s with
        distances := s.distances.setRow a (s.joinedDistance linkage a b) ks
        sums :=
          match linkage with
          | .average => s.sums.setRow a (s.joinedSum a b) ks
          | .ward => s.sums } := by
  induction ks generalizing s with
  | nil => cases linkage <;> rfl
  | cons k ks ih =>
      obtain ⟨⟨hk, hka, hkb⟩, hks⟩ := List.forall_mem_cons.mp hks
      obtain ⟨hnotin, hnodup⟩ := List.nodup_cons.mp hnodup
      rw [List.foldl_cons, ih (h.enterUnion ha hk) hnodup hks]
      have hne {l : Nat} (hl : l ∈ ks) : k ≠ l := fun hkl => hnotin (hkl ▸ hl)
      have hdistance : ∀ l ∈ ks, (s.enterUnion linkage a b k).joinedDistance linkage a b l =
          s.joinedDistance linkage a b l := fun l hl =>
        h.joinedDistance_enterUnion ha hb hk (hne hl) hka hkb (hks l hl).2.1
      have hsum : ∀ l ∈ ks, (s.enterUnion linkage a b k).joinedSum a b l = s.joinedSum a b l :=
        fun l hl => h.joinedSum_enterUnion ha hb hk (hne hl) hka hkb (hks l hl).2.1
      rw [SquareTable.setRow_congr hdistance, SquareTable.setRow_congr hsum]
      cases linkage <;> rfl

end enterUnion

/-! ### The clusters after a join -/

section join

variable [Scalar α] {s : Clusters α} {n a b newId : Nat} {linkage : Linkage}

theorem slots_join :
    (s.join linkage a b newId).slots =
      (s.slots.setIfInBounds a (some ⟨newId, s.sizeAt a + s.sizeAt b⟩)).setIfInBounds b none := by
  simp only [Clusters.join, slots_foldl_enterUnion]

theorem Shaped.foldl_others (h : s.Shaped n) (ha : s.isActive a = true) (hb : s.isActive b = true) :
    (s.others a b).foldl (Clusters.enterUnion linkage a b) s =
      { s with
        distances := s.distances.setRow a (s.joinedDistance linkage a b) (s.others a b)
        sums :=
          match linkage with
          | .average => s.sums.setRow a (s.joinedSum a b) (s.others a b)
          | .ward => s.sums } :=
  h.foldl_enterUnion (h.active_lt ha) (h.active_lt hb) (s.nodup_others a b) fun _ hk =>
    ⟨h.active_lt (mem_others.mp hk).1, (mem_others.mp hk).2⟩

theorem Shaped.distances_join (h : s.Shaped n) (ha : s.isActive a = true) (hb : s.isActive b = true) :
    (s.join linkage a b newId).distances =
      s.distances.setRow a (s.joinedDistance linkage a b) (s.others a b) := by
  simp only [Clusters.join, h.foldl_others ha hb]

theorem Shaped.sums_join_average (h : s.Shaped n) (ha : s.isActive a = true)
    (hb : s.isActive b = true) :
    (s.join .average a b newId).sums = s.sums.setRow a (s.joinedSum a b) (s.others a b) := by
  simp only [Clusters.join, h.foldl_others ha hb]

theorem Shaped.sums_join_ward (h : s.Shaped n) (ha : s.isActive a = true) (hb : s.isActive b = true) :
    (s.join .ward a b newId).sums = s.sums := by
  simp only [Clusters.join, h.foldl_others ha hb]

/-- **A merge keeps the shape**, the agreement of the two sides of the diagonal included. -/
theorem Shaped.join (h : s.Shaped n) (ha : s.isActive a = true) (hb : s.isActive b = true) :
    (s.join linkage a b newId).Shaped n where
  slotCount_eq := by simpa [slotCount, slots_join] using h.slotCount_eq
  distances := by
    rw [h.distances_join ha hb]
    exact h.distances.setRow (h.active_lt ha) fun k hk => h.active_lt (mem_others.mp hk).1
  sums := by
    cases linkage with
    | average =>
        rw [h.sums_join_average ha hb]
        exact h.sums.setRow (h.active_lt ha) fun k hk => h.active_lt (mem_others.mp hk).1
    | ward =>
        rw [h.sums_join_ward ha hb]
        exact h.sums

theorem cluster?_join (ha : s.isActive a = true) (hb : s.isActive b = true) (i : Nat) :
    (s.join linkage a b newId).cluster? i =
      if i = b then none
      else if i = a then some ⟨newId, s.sizeAt a + s.sizeAt b⟩ else s.cluster? i := by
  have halt : a < s.slots.size := isActive_lt ha
  have hblt : b < s.slots.size := isActive_lt hb
  simp only [cluster?, slots_join, Array.getD_eq_getD_getElem?]
  by_cases hib : i = b
  · subst hib
    simp [hblt]
  · rw [if_neg hib, Array.getElem?_setIfInBounds_ne (Ne.symm hib)]
    by_cases hia : i = a
    · subst hia
      simp [halt]
    · rw [if_neg hia, Array.getElem?_setIfInBounds_ne (Ne.symm hia)]

theorem isActive_join (ha : s.isActive a = true) (hb : s.isActive b = true) {i : Nat} :
    (s.join linkage a b newId).isActive i = true ↔ s.isActive i = true ∧ i ≠ b := by
  simp only [isActive, cluster?_join ha hb] at ha ⊢
  by_cases hib : i = b
  · simp [hib]
  · by_cases hia : i = a
    · subst hia
      simp [hib, ha]
    · simp [hib, hia]

theorem idAt_join (ha : s.isActive a = true) (hb : s.isActive b = true) {i : Nat} (hib : i ≠ b) :
    (s.join linkage a b newId).idAt i = if i = a then newId else s.idAt i := by
  simp only [idAt, cluster?_join ha hb, if_neg hib]
  split <;> simp

theorem sizeAt_join (ha : s.isActive a = true) (hb : s.isActive b = true) {i : Nat} (hib : i ≠ b) :
    (s.join linkage a b newId).sizeAt i =
      if i = a then s.sizeAt a + s.sizeAt b else s.sizeAt i := by
  simp only [sizeAt, cluster?_join ha hb, if_neg hib]
  split <;> simp

theorem active_join_perm (ha : s.isActive a = true) (hb : s.isActive b = true) (hab : a ≠ b) :
    (s.join linkage a b newId).active.Perm (a :: s.others a b) := by
  refine (List.perm_ext_iff_of_nodup (nodup_active _) ?_).mpr ?_
  · exact List.nodup_cons.mpr ⟨by simp, s.nodup_others a b⟩
  · intro k
    simp only [mem_active, isActive_join ha hb, List.mem_cons, mem_others]
    constructor
    · intro hboth
      obtain ⟨hk, hkb⟩ := hboth
      by_cases hka : k = a
      · exact Or.inl hka
      · exact Or.inr ⟨hk, hka, hkb⟩
    · intro hcases
      rcases hcases with rfl | ⟨hk, -, hkb⟩
      · exact ⟨ha, hab⟩
      · exact ⟨hk, hkb⟩

/-- Writing the row of the new cluster reaches every slot that is in use after the join. -/
theorem Shaped.get_newRow (h : s.Shaped n) (ha : s.isActive a = true) {t : SquareTable α}
    (ht : t.Full n) (f : Nat → α) {i j : Nat} (hi : s.isActive i = true)
    (hj : s.isActive j = true) (hib : i ≠ b) (hjb : j ≠ b) (hij : i ≠ j) :
    (t.setRow a f (s.others a b)).get i j =
      if i = a then f j else if j = a then f i else t.get i j := by
  -- slots in use other than `a` and `b` are exactly those that are written
  have hks : ∀ k ∈ s.others a b, k < n ∧ k ≠ a := fun k hk =>
    ⟨h.active_lt (mem_others.mp hk).1, (mem_others.mp hk).2.1⟩
  rw [ht.get_setRow (h.active_lt ha) hks (h.active_lt hj)]
  by_cases hia : i = a
  · subst hia
    rw [if_pos ⟨rfl, mem_others.mpr ⟨hj, Ne.symm hij, hjb⟩⟩, if_pos rfl]
  · by_cases hja : j = a
    · subst hja
      rw [if_neg (fun hc => hia hc.1), if_pos ⟨rfl, mem_others.mpr ⟨hi, hia, hib⟩⟩, if_neg hia,
        if_pos rfl]
    · rw [if_neg (fun hc => hia hc.1), if_neg (fun hc => hja hc.1), if_neg hia, if_neg hja]

section newRow

variable {β : Type} {f g : Nat → β} {old old' : β} {i j : Nat}

omit [Scalar α] in
/-- What holds of the new row and of an old value holds of every value after the row is written. -/
theorem of_newRow {P : β → Prop} (hi : s.isActive i = true) (hj : s.isActive j = true)
    (hib : i ≠ b) (hjb : j ≠ b) (hij : i ≠ j)
    (hnew : ∀ k, s.isActive k = true → k ≠ a → k ≠ b → P (f k)) (hold : P old) :
    P (if i = a then f j else if j = a then f i else old) := by
  by_cases hia : i = a
  · have hja : j ≠ a := fun hja => hij (hia.trans hja.symm)
    rw [if_pos hia]
    exact hnew j hj hja hjb
  · rw [if_neg hia]
    by_cases hja : j = a
    · rw [if_pos hja]
      exact hnew i hi hia hib
    · rw [if_neg hja]
      exact hold

omit [Scalar α] in
theorem newRow_congr (hi : s.isActive i = true) (hj : s.isActive j = true) (hib : i ≠ b)
    (hjb : j ≠ b) (hij : i ≠ j)
    (hnew : ∀ k, s.isActive k = true → k ≠ a → k ≠ b → f k = g k) (hold : old = old') :
    (if i = a then f j else if j = a then f i else old) =
      if i = a then g j else if j = a then g i else old' := by
  by_cases hia : i = a
  · have hja : j ≠ a := fun hja => hij (hia.trans hja.symm)
    rw [if_pos hia, if_pos hia, hnew j hj hja hjb]
  · rw [if_neg hia, if_neg hia]
    by_cases hja : j = a
    · rw [if_pos hja, if_pos hja, hnew i hi hia hib]
    · rw [if_neg hja, if_neg hja, hold]

end newRow

/-- Distances to the new cluster are joined distances, all others stay. -/
theorem distance_join (h : s.Shaped n) (ha : s.isActive a = true) (hb : s.isActive b = true)
    {i j : Nat} (hi : s.isActive i = true) (hj : s.isActive j = true) (hib : i ≠ b) (hjb : j ≠ b)
    (hij : i ≠ j) :
    (s.join linkage a b newId).distances.get i j =
      if i = a then s.joinedDistance linkage a b j
      else if j = a then s.joinedDistance linkage a b i else s.distances.get i j := by
  rw [h.distances_join ha hb]
  exact h.get_newRow ha h.distances.toFull (s.joinedDistance linkage a b) hi hj hib hjb hij

theorem distance_join_other (h : s.Shaped n) (ha : s.isActive a = true) (hb : s.isActive b = true)
    {i j : Nat} (hi : s.isActive i = true) (hj : s.isActive j = true) (hib : i ≠ b) (hjb : j ≠ b)
    (hij : i ≠ j) (hia : i ≠ a) (hja : j ≠ a) :
    (s.join linkage a b newId).distances.get i j = s.distances.get i j := by
  rw [distance_join h ha hb hi hj hib hjb hij, if_neg hia, if_neg hja]

/-- Average linkage adds the sums of the two clusters that are merged. -/
theorem sum_join_average (h : s.Shaped n) (ha : s.isActive a = true) (hb : s.isActive b = true)
    {i j : Nat} (hi : s.isActive i = true) (hj : s.isActive j = true) (hib : i ≠ b) (hjb : j ≠ b)
    (hij : i ≠ j) :
    (s.join .average a b newId).sums.get i j =
      if i = a then s.joinedSum a b j
      else if j = a then s.joinedSum a b i else s.sums.get i j := by
  rw [h.sums_join_average ha hb]
  exact h.get_newRow ha h.sums.toFull (s.joinedSum a b) hi hj hib hjb hij

end join

/-! ### The blocks in the slots -/

/-- The slots in use hold a partition of the blocks below `n`, each the blocks that `members` gives
it, and each slot in use is the first of its blocks. -/
structure Holds (s : Clusters α) (n : Nat) (members : Nat → Finset Nat) : Prop where
  first_mem : ∀ {i}, s.isActive i = true → i ∈ members i
  first_le : ∀ {i}, s.isActive i = true → ∀ x ∈ members i, i ≤ x
  disjoint : ∀ {i j}, s.isActive i = true → s.isActive j = true → i ≠ j →
    Disjoint (members i) (members j)
  cover : ∀ {x}, x < n ↔ ∃ i, s.isActive i = true ∧ x ∈ members i
  sizeAt_eq : ∀ {i}, s.isActive i = true → s.sizeAt i = (members i).card

/-- The blocks of each slot once slot `b` has been merged into slot `a`. -/
def joinBlocks (members : Nat → Finset Nat) (a b : Nat) : Nat → Finset Nat := fun i =>
  if i = a then members a ∪ members b else if i = b then ∅ else members i

section holds

variable {s : Clusters α} {n a b newId : Nat} {linkage : Linkage} {members : Nat → Finset Nat}

theorem joinBlocks_left (members : Nat → Finset Nat) (a b : Nat) :
    joinBlocks members a b a = members a ∪ members b := by
  simp [joinBlocks]

theorem joinBlocks_other (members : Nat → Finset Nat) {a b i : Nat} (hia : i ≠ a) (hib : i ≠ b) :
    joinBlocks members a b i = members i := by
  simp [joinBlocks, hia, hib]

/-- A block of slot `b` moves to slot `a`, all others stay where they are. -/
theorem mem_joinBlocks_iff (ha : s.isActive a = true) (hb : s.isActive b = true) {i x : Nat}
    (hi : s.isActive i = true) (hib : i ≠ b) :
    x ∈ joinBlocks members a b i ↔
      ∃ j, s.isActive j = true ∧ x ∈ members j ∧ i = if j = b then a else j := by
  by_cases hia : i = a
  · subst hia
    rw [joinBlocks_left, Finset.mem_union]
    constructor
    · intro hcases
      rcases hcases with hx | hx
      · exact ⟨i, ha, hx, (if_neg hib).symm⟩
      · exact ⟨b, hb, hx, (if_pos rfl).symm⟩
    · intro hexists
      obtain ⟨j, hj, hx, hij⟩ := hexists
      by_cases hjb : j = b
      · exact Or.inr (hjb ▸ hx)
      · rw [if_neg hjb] at hij
        exact Or.inl (hij ▸ hx)
  · rw [joinBlocks_other members hia hib]
    constructor
    · intro hx
      exact ⟨i, hi, hx, (if_neg hib).symm⟩
    · intro hexists
      obtain ⟨j, hj, hx, hij⟩ := hexists
      by_cases hjb : j = b
      · rw [if_pos hjb] at hij
        exact absurd hij hia
      · rw [if_neg hjb] at hij
        exact hij ▸ hx

theorem Holds.mem_lt (h : s.Holds n members) {i x : Nat} (hi : s.isActive i = true)
    (hx : x ∈ members i) : x < n :=
  h.cover.mpr ⟨i, hi, hx⟩

/-- A block is in one slot only. -/
theorem Holds.slot_unique (h : s.Holds n members) {i j x : Nat} (hi : s.isActive i = true)
    (hj : s.isActive j = true) (hxi : x ∈ members i) (hxj : x ∈ members j) : i = j := by
  by_contra hij
  exact Finset.disjoint_left.mp (h.disjoint hi hj hij) hxi hxj

theorem Holds.card_pos (h : s.Holds n members) {i : Nat} (hi : s.isActive i = true) :
    0 < (members i).card :=
  Finset.card_pos.mpr ⟨i, h.first_mem hi⟩

theorem Holds.size_pos (h : s.Holds n members) {i : Nat} (hi : s.isActive i = true) :
    0 < s.sizeAt i := by
  rw [h.sizeAt_eq hi]
  exact h.card_pos hi

theorem Holds.size_le (h : s.Holds n members) {i : Nat} (hi : s.isActive i = true) :
    s.sizeAt i ≤ n := by
  rw [h.sizeAt_eq hi, ← Finset.card_range n]
  exact Finset.card_le_card fun x hx => Finset.mem_range.mpr (h.mem_lt hi hx)

/-- Two slots in use hold at most all blocks. -/
theorem Holds.size_add_size_le (h : s.Holds n members) (ha : s.isActive a = true)
    (hb : s.isActive b = true) (hab : a ≠ b) : s.sizeAt a + s.sizeAt b ≤ n := by
  rw [h.sizeAt_eq ha, h.sizeAt_eq hb, ← Finset.card_union_of_disjoint (h.disjoint ha hb hab),
    ← Finset.card_range n]
  refine Finset.card_le_card fun x hx => Finset.mem_range.mpr ?_
  rcases Finset.mem_union.mp hx with hx | hx
  · exact h.mem_lt ha hx
  · exact h.mem_lt hb hx

variable [Scalar α]

theorem holds_singletons (m : ScoreMatrix α) : (singletons m).Holds m.size fun i => {i} where
  first_mem := by simp
  first_le := by simp
  disjoint := by simp
  cover := by simp
  sizeAt_eq := by
    intro i hi
    rw [sizeAt_singletons m ((isActive_singletons m i).mp hi), Finset.card_singleton]

/-- After a merge the blocks of a slot are together in a slot, as well. -/
theorem exists_slot_join (ha : s.isActive a = true) (hb : s.isActive b = true) (hab : a ≠ b) {j : Nat}
    (hj : s.isActive j = true) :
    ∃ i, (s.join linkage a b newId).isActive i = true ∧ members j ⊆ joinBlocks members a b i := by
  have hactive : s.isActive (if j = b then a else j) = true ∧ (if j = b then a else j) ≠ b := by
    split
    · exact ⟨ha, hab⟩
    · exact ⟨hj, by assumption⟩
  exact ⟨_, (isActive_join ha hb).mpr hactive, fun x hx =>
    (mem_joinBlocks_iff ha hb hactive.1 hactive.2).mpr ⟨j, hj, hx, rfl⟩⟩

/-- **Merging keeps the partition.** The merged cluster sits in the lower of the two slots, which is
the first block of both. -/
theorem Holds.join (h : s.Holds n members) (ha : s.isActive a = true) (hb : s.isActive b = true)
    (hab : a < b) : (s.join linkage a b newId).Holds n (joinBlocks members a b) where
  first_mem := by
    intro i hactive
    obtain ⟨hi, hib⟩ := (isActive_join ha hb).mp hactive
    exact (mem_joinBlocks_iff ha hb hi hib).mpr ⟨i, hi, h.first_mem hi, (if_neg hib).symm⟩
  first_le := by
    intro i hactive x hx
    obtain ⟨hi, hib⟩ := (isActive_join ha hb).mp hactive
    obtain ⟨j, hj, hxj, rfl⟩ := (mem_joinBlocks_iff ha hb hi hib).mp hx
    have hle := h.first_le hj x hxj
    split <;> omega
  disjoint := by
    intro i j hactive hactive' hij
    obtain ⟨hi, hib⟩ := (isActive_join ha hb).mp hactive
    obtain ⟨hj, hjb⟩ := (isActive_join ha hb).mp hactive'
    refine Finset.disjoint_left.mpr ?_
    intro x hx hx'
    obtain ⟨k, hk, hxk, rfl⟩ := (mem_joinBlocks_iff ha hb hi hib).mp hx
    obtain ⟨l, hl, hxl, rfl⟩ := (mem_joinBlocks_iff ha hb hj hjb).mp hx'
    -- a block in both was in one slot before
    exact hij (by rw [h.slot_unique hk hl hxk hxl])
  cover := by
    intro x
    rw [h.cover]
    constructor
    · intro hexists
      obtain ⟨j, hj, hx⟩ := hexists
      obtain ⟨i, hi, hsubset⟩ := exists_slot_join ha hb hab.ne hj
      exact ⟨i, hi, hsubset hx⟩
    · intro hexists
      obtain ⟨i, hactive, hx⟩ := hexists
      obtain ⟨hi, hib⟩ := (isActive_join ha hb).mp hactive
      obtain ⟨j, hj, hx, -⟩ := (mem_joinBlocks_iff ha hb hi hib).mp hx
      exact ⟨j, hj, hx⟩
  sizeAt_eq := by
    intro i hactive
    obtain ⟨hi, hib⟩ := (isActive_join ha hb).mp hactive
    rw [sizeAt_join ha hb hib]
    by_cases hia : i = a
    · subst hia
      rw [if_pos rfl, joinBlocks_left, h.sizeAt_eq ha, h.sizeAt_eq hb,
        Finset.card_union_of_disjoint (h.disjoint ha hb hab.ne)]
    · rw [if_neg hia, joinBlocks_other members hia hib]
      exact h.sizeAt_eq hi

end holds

end Clusters

end BlockAffinity
