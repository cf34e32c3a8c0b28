import BlockAffinity.Linkage.Cut
import BlockAffinity.Proofs.Assignment
import BlockAffinity.Proofs.Linkage.Binary
import BlockAffinity.Proofs.Linkage.Classes

/-!
# BlockAffinity.Proofs.Linkage.Joining

**What applying merges does to the classes of leaves.** A merge of two clusters that exist joins the
classes of their representatives (`Joining.apply_of_some`), for any list of merges and in any order.
So merges separate nothing, and the labels that a cut gives are equal where the classes are.

In a dendrogram that has been built from a matrix every merge joins two different classes: the
classes are at all times the blocks of the slots in use (`Run.joined`).
-/

namespace BlockAffinity

variable {α : Type}

/-! ### Applying merges -/

namespace Joining

/-- There are `n` leaves and `k` clusters created by merges, each represented by a leaf. -/
structure Sized (s : Joining) (n k : Nat) : Prop where
  size_forest : s.forest.size = n
  size_representatives : s.representatives.size = n + k
  leaf : ∀ {id r : Nat}, s.representatives[id]? = some r → r < n

theorem sized_start (n : Nat) : (start n).Sized n 0 where
  size_forest := by simp [start, Forest.discrete, Forest.size]
  size_representatives := by simp [start]
  leaf := by
    intro id r h
    obtain ⟨hlt, rfl⟩ := Array.getElem?_eq_some_iff.mp h
    simpa [start] using hlt

variable {s t : Joining} {n k left right : Nat} {m : Merge α}

/-- **A merge of two clusters that exist** joins the classes of their representatives and no others.
If the classes differ, there is one class less. -/
theorem apply_of_some (hs : s.Sized n k) (hleft : s.representatives[m.left]? = some left)
    (hright : s.representatives[m.right]? = some right) :
    ∃ t, s.apply m = .ok t ∧ t.Sized n (k + 1) ∧
      t.representatives = s.representatives.push left ∧
      (∀ x y, t.forest.rootOf x = t.forest.rootOf y ↔ s.forest.rootOf x = s.forest.rootOf y ∨
        ((s.forest.rootOf x = s.forest.rootOf left ∨ s.forest.rootOf x = s.forest.rootOf right) ∧
          (s.forest.rootOf y = s.forest.rootOf left ∨
            s.forest.rootOf y = s.forest.rootOf right))) ∧
      (s.forest.rootOf left ≠ s.forest.rootOf right →
        t.forest.classes.card + 1 = s.forest.classes.card) := by
  obtain ⟨hroot₁, hroots₁, hsize₁⟩ := s.forest.find_spec left
  obtain ⟨hroot₂, hroots₂, hsize₂⟩ := (s.forest.find left).2.find_spec right
  -- both walks leave `f`, which has the same roots as before
  generalize hf : ((s.forest.find left).2.find right).2 = f at hroots₂ hsize₂
  have hroots : f.rootOf = s.forest.rootOf := hroots₂.trans hroots₁
  have hsize : f.size = n := hsize₂.trans (hsize₁.trans hs.size_forest)
  have hup : ∀ z, f.up (s.forest.rootOf z) = s.forest.rootOf z := by
    intro z
    rw [← hroots]
    exact f.up_rootOf z
  have hlt : ∀ {z}, z < n → s.forest.rootOf z < f.size := fun hz =>
    hsize ▸ (s.forest.rootOf_le _).trans_lt hz
  have hl := hlt (hs.leaf hleft)
  have hr := hlt (hs.leaf hright)
  refine ⟨⟨f.link (s.forest.rootOf left) (s.forest.rootOf right), s.representatives.push left⟩,
    ?_, ⟨?_, ?_, ?_⟩, rfl, ?_, ?_⟩
  · simp only [apply, hleft, hright, hroot₁, hroot₂, hroots₁, hf]
  · rw [Forest.link, Forest.size_redirect, hsize]
  · rw [Array.size_push, hs.size_representatives, Nat.add_assoc]
  · intro id r h
    rw [Array.getElem?_push] at h
    split at h
    · rw [← Option.some.inj h]
      exact hs.leaf hleft
    · exact hs.leaf h
  · intro x y
    rw [← hroots] at hup hl hr ⊢
    exact Forest.rootOf_link_eq_iff (hup left) (hup right) hl hr
  · intro hne
    have hcard := Forest.card_classes_link (hup left) (hup right) hl hr hne
    have hclasses : f.classes = s.forest.classes := by
      rw [Forest.classes, Forest.classes, hroots, hsize, hs.size_forest]
    rwa [hclasses] at hcard

theorem some_of_apply (h : s.apply m = .ok t) :
    ∃ left right, s.representatives[m.left]? = some left ∧
      s.representatives[m.right]? = some right := by
  unfold apply at h
  cases hleft : s.representatives[m.left]? with
  | none => simp [hleft] at h
  | some left =>
      cases hright : s.representatives[m.right]? with
      | none => simp [hleft, hright] at h
      | some right => exact ⟨left, right, rfl, rfl⟩

theorem applyAll_append (s : Joining) (xs ys : List (Merge α)) :
    s.applyAll (xs ++ ys) =
      match s.applyAll xs with
      | .error fault => .error fault
      | .ok t => t.applyAll ys := by
  induction xs generalizing s with
  | nil => rfl
  | cons m xs ih =>
      rw [List.cons_append, applyAll, applyAll]
      cases s.apply m with
      | error fault => rfl
      | ok t => exact ih t

/-- **Merges separate nothing**: leaves of one class stay in one class. -/
theorem of_applyAll {merges : List (Merge α)} (hs : s.Sized n k) (h : s.applyAll merges = .ok t) :
    t.Sized n (k + merges.length) ∧
      ∀ x y, s.forest.rootOf x = s.forest.rootOf y → t.forest.rootOf x = t.forest.rootOf y := by
  induction merges generalizing s k with
  | nil =>
      obtain rfl : s = t := Except.ok.inj h
      exact ⟨hs, fun _ _ => id⟩
  | cons m merges ih =>
      rw [applyAll] at h
      cases happly : s.apply m with
      | error fault => simp [happly] at h
      | ok u =>
          obtain ⟨left, right, hleft, hright⟩ := some_of_apply happly
          obtain ⟨v, hv, hsized, -, hsame, -⟩ := apply_of_some hs hleft hright
          obtain rfl : u = v := Except.ok.inj (happly.symm.trans hv)
          rw [happly] at h
          obtain ⟨hsized', hkept⟩ := ih hsized h
          refine ⟨?_, fun x y hxy => hkept x y ((hsame x y).mpr (Or.inl hxy))⟩
          rwa [List.length_cons, Nat.add_comm merges.length, ← Nat.add_assoc]

/-- If a list of merges can be applied, so can its prefixes, and they join less. -/
theorem of_prefix {xs ys : List (Merge α)} (hs : s.Sized n k) (hxs : xs <+: ys)
    (h : s.applyAll ys = .ok t) :
    ∃ u, s.applyAll xs = .ok u ∧ u.Sized n (k + xs.length) ∧ t.Sized n (k + ys.length) ∧
      ∀ x y, u.forest.rootOf x = u.forest.rootOf y → t.forest.rootOf x = t.forest.rootOf y := by
  obtain ⟨rest, rfl⟩ := hxs
  rw [applyAll_append] at h
  cases happly : s.applyAll xs with
  | error fault => simp [happly] at h
  | ok u =>
      rw [happly] at h
      obtain ⟨hsized, -⟩ := of_applyAll hs happly
      obtain ⟨hsized', hkept⟩ := of_applyAll hsized h
      rw [Nat.add_assoc, ← List.length_append] at hsized'
      exact ⟨u, rfl, hsized, hsized', hkept⟩

/-! ### Labels -/

/-- The labels of the leaves, in order. -/
def labels (s : Joining) (leaves : Nat) : List Nat :=
  numberClasses [] (s.forest.roots (List.range leaves))

/-- The labels of the leaves. -/
def assignment (s : Joining) (ids : List BlockId) : Assignment :=
  .ofLabels ids (numberClasses [] (s.forest.roots (List.range ids.length)))

end Joining

theorem Forest.roots_eq (f : Forest) (xs : List Nat) : f.roots xs = xs.map f.rootOf := by
  induction xs generalizing f with
  | nil => rfl
  | cons x xs ih =>
      obtain ⟨hroot, hroots, -⟩ := f.find_spec x
      rw [roots]
      dsimp only
      rw [ih, hroot, hroots, List.map_cons]

namespace Joining

variable {s : Joining} {ids : List BlockId} {k : Nat}

theorem length_labels (s : Joining) (ids : List BlockId) :
    ids.length = (numberClasses [] (s.forest.roots (List.range ids.length))).length := by
  rw [length_numberClasses, Forest.roots_eq, List.length_map, List.length_range]

/-- **Leaves have the same label** where they are in the same class. -/
theorem getElem?_labels_eq_iff (s : Joining) {n i j : Nat} (hi : i < n) (hj : j < n) :
    (s.labels n)[i]? = (s.labels n)[j]? ↔ s.forest.rootOf i = s.forest.rootOf j := by
  rw [labels, numberClasses_getElem?_eq_iff (by simpa [Forest.roots_eq] using hi)
    (by simpa [Forest.roots_eq] using hj), Forest.roots_eq]
  simp [hi, hj]

/-- **Blocks have the same label** where their leaves are in the same class. -/
theorem get?_assignment_eq_iff (hids : ids.Nodup) {i j : Nat} {x y : BlockId}
    (hi : ids[i]? = some x) (hj : ids[j]? = some y) :
    (s.assignment ids).get? x = (s.assignment ids).get? y ↔
      s.forest.rootOf i = s.forest.rootOf j := by
  have hlength := s.length_labels ids
  rw [assignment, Assignment.get?_ofLabels hids hlength hi, Assignment.get?_ofLabels hids hlength hj]
  exact s.getElem?_labels_eq_iff (List.getElem?_eq_some_iff.mp hi).1
    (List.getElem?_eq_some_iff.mp hj).1

/-- **As many clusters as classes.** -/
theorem clusterCount_assignment (hids : ids.Nodup) (hs : s.Sized ids.length k) :
    (s.assignment ids).clusterCount = s.forest.classes.card := by
  rw [assignment, Assignment.clusterCount_ofLabels hids (s.length_labels ids),
    card_numberClasses, Forest.roots_eq, Forest.classes, hs.size_forest]
  rfl

end Joining

/-! ### Along a run -/

namespace Agglomeration

variable [Scalar α] {s : Agglomeration α} {n : Nat} {members : Nat → Finset Nat}
  {merges : List (Merge α)}

/-- The merges so far have joined the leaves to what the slots in use hold. -/
structure Joined (s : Agglomeration α) (n : Nat) (members : Nat → Finset Nat)
    (merges : List (Merge α)) (joined : Joining) : Prop where
  applied : (Joining.start n).applyAll merges = .ok joined
  sized : joined.Sized n merges.length
  represented : ∀ {i}, s.clusters.isActive i = true →
    ∃ r ∈ members i, joined.representatives[s.clusters.idAt i]? = some r
  same_class_iff : ∀ {i j x y}, s.clusters.isActive i = true → s.clusters.isActive j = true →
    x ∈ members i → y ∈ members j →
    (joined.forest.rootOf x = joined.forest.rootOf y ↔ i = j)
  card_classes : joined.forest.classes.card + merges.length = n

theorem joined_start (m : ScoreMatrix α) :
    (start m).Joined m.size (fun i => {i}) [] (.start m.size) where
  applied := rfl
  sized := Joining.sized_start m.size
  represented := by
    intro i hi
    have hlt : i < m.size := (Clusters.isActive_singletons m i).mp hi
    refine ⟨i, Finset.mem_singleton_self i, ?_⟩
    rw [show (start m).clusters.idAt i = i from Clusters.idAt_singletons m hlt]
    simp [Joining.start, hlt]
  same_class_iff := by
    intro i j x y _ _ hx hy
    rw [Finset.mem_singleton.mp hx, Finset.mem_singleton.mp hy, Joining.start,
      Forest.rootOf_discrete, Forest.rootOf_discrete]
  card_classes := Forest.card_classes_discrete m.size

section merge

variable {a b : Nat} {joined : Joining} {linkage : Linkage}

/-- The record of a merge names the numbers in the two slots, `p` before `q`. -/
theorem exists_slots_mergeRecord (ha : s.clusters.isActive a = true) (hb : s.clusters.isActive b = true) :
    ∃ p q, s.clusters.isActive p = true ∧ s.clusters.isActive q = true ∧
      (p = a ∧ q = b ∨ p = b ∧ q = a) ∧
      (s.clusters.mergeRecord a b).left = s.clusters.idAt p ∧
      (s.clusters.mergeRecord a b).right = s.clusters.idAt q := by
  rcases mergeRecord_ends s.clusters a b with ⟨hl, hr⟩ | ⟨hl, hr⟩
  · exact ⟨a, b, ha, hb, Or.inl ⟨rfl, rfl⟩, hl, hr⟩
  · exact ⟨b, a, hb, ha, Or.inr ⟨rfl, rfl⟩, hl, hr⟩

/-- **The record of a merge can be applied.** It joins the classes of the two slots and no others, and
the new cluster is represented by a leaf of either. -/
theorem Joined.apply_mergeRecord (h : s.Joined n members merges joined)
    (ha : s.clusters.isActive a = true) (hb : s.clusters.isActive b = true) (hab : a ≠ b) :
    ∃ joined', joined.apply (s.clusters.mergeRecord a b) = .ok joined' ∧
      joined'.Sized n (merges.length + 1) ∧
      (∃ r ∈ members a ∪ members b, joined'.representatives = joined.representatives.push r) ∧
      (∀ {i j x y}, s.clusters.isActive i = true → s.clusters.isActive j = true → x ∈ members i →
        y ∈ members j → (joined'.forest.rootOf x = joined'.forest.rootOf y ↔
          i = j ∨ (i = a ∨ i = b) ∧ (j = a ∨ j = b))) ∧
      joined'.forest.classes.card + 1 = joined.forest.classes.card := by
  obtain ⟨p, q, hp, hq, hpq, hleft, hright⟩ := exists_slots_mergeRecord ha hb
  obtain ⟨left, hleftmem, hleftrep⟩ := h.represented hp
  obtain ⟨right, hrightmem, hrightrep⟩ := h.represented hq
  obtain ⟨joined', happly, hsized, hrepresentatives, hsame, hcard⟩ :=
    Joining.apply_of_some h.sized (hleft ▸ hleftrep) (hright ▸ hrightrep)
  refine ⟨joined', happly, hsized, ⟨left, ?_, hrepresentatives⟩, fun {i j x y} hi hj hx hy => ?_, hcard ?_⟩
  · rcases hpq with ⟨rfl, rfl⟩ | ⟨rfl, rfl⟩
    · exact Finset.mem_union_left _ hleftmem
    · exact Finset.mem_union_right _ hleftmem
  · rw [hsame, h.same_class_iff hi hj hx hy, h.same_class_iff hi hp hx hleftmem,
      h.same_class_iff hi hq hx hrightmem, h.same_class_iff hj hp hy hleftmem,
      h.same_class_iff hj hq hy hrightmem]
    omega
  · rw [Ne, h.same_class_iff hp hq hleftmem hrightmem]
    omega

theorem Joined.merge (h : s.Joined n members merges joined) (hhistory : s.History n members merges)
    (ha : s.clusters.isActive a = true) (hb : s.clusters.isActive b = true) (hab : a < b) :
    ∃ joined', (s.merge linkage a b (n + merges.length)).Joined n
      (Clusters.joinBlocks members a b) (merges ++ [s.clusters.mergeRecord a b]) joined' := by
  obtain ⟨joined', happly, hsized, ⟨r, hr, hrepresentatives⟩, hsame, hcard⟩ :=
    h.apply_mergeRecord ha hb hab.ne
  have hlength : (merges ++ [s.clusters.mergeRecord a b]).length = merges.length + 1 := by simp
  have hactive : ∀ {i}, (s.merge linkage a b (n + merges.length)).clusters.isActive i = true →
      s.clusters.isActive i = true ∧ i ≠ b := fun hi => (Clusters.isActive_join ha hb).mp hi
  refine ⟨joined', ?_, ?_, ?_, ?_, ?_⟩
  · -- applied
    rw [Joining.applyAll_append, h.applied]
    simp only [Joining.applyAll, happly]
  · -- sized
    rwa [hlength]
  · -- represented
    intro i hi
    obtain ⟨hi, hib⟩ := hactive hi
    rw [show (s.merge linkage a b (n + merges.length)).clusters.idAt i = _ from
      Clusters.idAt_join ha hb hib, hrepresentatives]
    by_cases hia : i = a
    · subst hia
      rw [if_pos rfl, ← h.sized.size_representatives, Array.getElem?_push_size,
        Clusters.joinBlocks_left]
      exact ⟨r, hr, rfl⟩
    · have hlt := hhistory.idAt_lt hi
      rw [if_neg hia, Array.getElem?_push, if_neg (by rw [h.sized.size_representatives]; omega),
        Clusters.joinBlocks_other members hia hib]
      exact h.represented hi
  · -- same_class_iff
    intro i j x y hi hj hx hy
    obtain ⟨hi, hib⟩ := hactive hi
    obtain ⟨hj, hjb⟩ := hactive hj
    -- the slots before the merge are the same, or they are `a` and `b`
    obtain ⟨i', hi', hx', rfl⟩ := (Clusters.mem_joinBlocks_iff ha hb hi hib).mp hx
    obtain ⟨j', hj', hy', rfl⟩ := (Clusters.mem_joinBlocks_iff ha hb hj hjb).mp hy
    rw [hsame hi' hj' hx' hy']
    split <;> split <;> omega
  · -- card_classes
    have hold := h.card_classes
    omega

end merge

variable {linkage : Linkage} {m : ScoreMatrix α}

/-- **The merges of a run can be applied**, and each of them joins two classes. -/
theorem Run.joined (h : Run linkage m merges members s) :
    ∃ joined, s.Joined m.size members merges joined := by
  induction h with
  | start => exact ⟨_, joined_start m⟩
  | merge hrun hpair ih =>
      obtain ⟨ha, hb, hab⟩ := hrun.sound.closestPair?_active hpair
      obtain ⟨joined, hjoined⟩ := ih
      exact hjoined.merge hrun.history ha hb hab

/-- The first merges of a run are the merges of a run. -/
theorem Run.of_prefix (h : Run linkage m merges members s) {first : List (Merge α)}
    (hfirst : first <+: merges) : ∃ members' s', Run linkage m first members' s' := by
  induction h with
  | start =>
      obtain rfl := List.prefix_nil.mp hfirst
      exact ⟨_, _, .start⟩
  | merge hrun hpair ih =>
      rcases List.prefix_concat_iff.mp hfirst with rfl | hfirst
      · exact ⟨_, _, hrun.merge hpair⟩
      · exact ih hfirst

end Agglomeration

end BlockAffinity
