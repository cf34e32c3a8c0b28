import BlockAffinity.Proofs.Linkage.Checked
import BlockAffinity.Proofs.Numbering
import Mathlib.Data.Setoid.Basic

/-!
# BlockAffinity.Proofs.Linkage.Partition

**A cut is the partition that its merges describe.** The merges may come from anywhere: they may
take a cluster twice, merge a cluster with itself, or name clusters that do not exist.

Each merge says that the blocks below its two clusters belong together (`Dendrogram.Joins`). As long
as merges name only clusters created before them, the classes of leaves are those of the smallest
equivalence relation that says so (`Joining.Follows`, kept by each merge and so by a list of them).
The first merge that names any other cluster makes the cut fail.

Every root is the smallest leaf of its class, so the partition determines the roots and thereby the
labels (`Joining.assignment_eq_of_same_labels`).
-/

namespace BlockAffinity

open Relation Scalar

variable {α : Type}

/-- The two clusters are among the first `count`. -/
def Merge.NamesBelow (m : Merge α) (count : Nat) : Prop := m.left < count ∧ m.right < count

instance (m : Merge α) (count : Nat) : Decidable (m.NamesBelow count) :=
  inferInstanceAs (Decidable (_ ∧ _))

namespace Dendrogram

/-- Every merge names clusters that exist before it. -/
def NamesEarlier (leaves : Nat) (merges : List (Merge α)) : Prop :=
  ∀ (k : Nat) (m : Merge α), merges[k]? = some m → m.NamesBelow (leaves + k)

instance (leaves : Nat) (merges : List (Merge α)) : Decidable (NamesEarlier leaves merges) :=
  decidable_of_iff (∀ k : Fin merges.length, merges[k].NamesBelow (leaves + k)) <| by
    constructor
    · intro h k m hk
      obtain ⟨hlt, rfl⟩ := List.getElem?_eq_some_iff.mp hk
      exact h ⟨k, hlt⟩
    · exact fun h k => h k _ (List.getElem?_eq_getElem k.isLt)

/-- One of the merges puts two blocks together. -/
def Joins (tree : Dendrogram α) (merges : List (Merge α)) (x y : Nat) : Prop :=
  ∃ m ∈ merges, x ∈ tree.leavesBelow m.left ∪ tree.leavesBelow m.right ∧
    y ∈ tree.leavesBelow m.left ∪ tree.leavesBelow m.right

/-- Flat clusters that are the partition described by merges, labelled in the order in which the
clusters first appear. -/
structure IsPartition (tree : Dendrogram α) (merges : List (Merge α)) (ids : List BlockId)
    (flat : Assignment) : Prop where
  ids_eq : flat.ids = ids
  same_label_iff : ∀ {i j : Nat} {x y : BlockId}, ids[i]? = some x → ids[j]? = some y →
    (flat.get? x = flat.get? y ↔ EqvGen (tree.Joins merges) i j)
  first_label : ∀ label, flat.values.head? = some label → label = 1
  label_pos : ∀ label ∈ flat.values, 0 < label
  label_le : ∀ (i label : Nat), flat.values[i]? = some label →
    label ≤ (flat.values.take i).foldr max 0 + 1

/-! ### Leaf sets -/

variable {tree : Dendrogram α} {leaves k : Nat} {merges : List (Merge α)} {m : Merge α}

/-- Later merges change no older leaf set. -/
theorem leavesBelow_append_of_lt {id : Nat} (more : List (Merge α))
    (h : id < leaves + merges.length) :
    leavesBelow ⟨leaves, merges ++ more⟩ id = leavesBelow ⟨leaves, merges⟩ id := by
  induction more using List.reverseRecOn with
  | nil => rw [List.append_nil]
  | append_singleton more m ih =>
      rw [← List.append_assoc, leavesBelow_concat_of_lt m (by rw [List.length_append]; omega), ih]

/-- **A merge unites the leaf sets** of the clusters that it names. -/
theorem leavesBelow_merge (hk : tree.merges[k]? = some m) (hm : m.NamesBelow (tree.leaves + k)) :
    tree.leavesBelow (tree.leaves + k) = tree.leavesBelow m.left ∪ tree.leavesBelow m.right := by
  obtain ⟨leaves, merges⟩ := tree
  dsimp only at hk hm ⊢
  obtain ⟨hlt, rfl⟩ := List.getElem?_eq_some_iff.mp hk
  obtain ⟨hleft, hright⟩ := hm
  have hlength : (merges.take k).length = k := List.length_take_of_le hlt.le
  have hsplit : merges = (merges.take k ++ [merges[k]]) ++ merges.drop (k + 1) := by simp
  -- all three leaf sets are settled with this merge
  have hcut : ∀ {id}, id ≤ leaves + k → leavesBelow ⟨leaves, merges⟩ id =
      leavesBelow ⟨leaves, merges.take k ++ [merges[k]]⟩ id := by
    intro id hid
    conv_lhs => rw [hsplit]
    refine leavesBelow_append_of_lt _ ?_
    rw [List.length_append, hlength, List.length_singleton]
    omega
  have hlast := @leavesBelow_concat_last α leaves (merges.take k) merges[k]
  rw [hlength] at hlast
  rw [hcut le_rfl, hcut hleft.le, hcut hright.le, hlast,
    leavesBelow_concat_of_lt _ (by rwa [hlength]), leavesBelow_concat_of_lt _ (by rwa [hlength])]

theorem namesEarlier_concat_iff :
    NamesEarlier leaves (merges ++ [m]) ↔
      NamesEarlier leaves merges ∧ m.NamesBelow (leaves + merges.length) := by
  constructor
  · intro h
    refine ⟨fun k other hk => h k other ?_, h _ m (by simp)⟩
    rw [List.getElem?_append_left (List.getElem?_eq_some_iff.mp hk).1, hk]
  · rintro ⟨hmerges, hm⟩ k other hk
    rcases getElem?_concat_cases hk with hk | ⟨rfl, rfl⟩
    · exact hmerges k other hk
    · exact hm

/-- **One more merge** puts two classes into one, and that is all it adds to the smallest equivalence
relation: a numbering of the classes that does the same describes the longer list of merges. -/
theorem eqvGen_joins_concat {f g : Nat → Nat} {left right : Nat}
    (hf : ∀ {x y}, f x = f y ↔ EqvGen (tree.Joins merges) x y)
    (hg : ∀ x y, g x = g y ↔ f x = f y ∨
      (f x = f left ∨ f x = f right) ∧ (f y = f left ∨ f y = f right))
    (hleft : left ∈ tree.leavesBelow m.left ∪ tree.leavesBelow m.right)
    (hright : right ∈ tree.leavesBelow m.left ∪ tree.leavesBelow m.right)
    (hbelow : ∀ {x}, x ∈ tree.leavesBelow m.left ∪ tree.leavesBelow m.right →
      f x = f left ∨ f x = f right) {x y : Nat} :
    g x = g y ↔ EqvGen (tree.Joins (merges ++ [m])) x y := by
  have hmono : ∀ {x y}, f x = f y → EqvGen (tree.Joins (merges ++ [m])) x y := fun hxy =>
    EqvGen.mono (fun _ _ ⟨other, hother, hboth⟩ =>
      ⟨other, List.mem_append_left _ hother, hboth⟩) _ _ (hf.mp hxy)
  have hend : ∀ {z}, f z = f left ∨ f z = f right →
      EqvGen (tree.Joins (merges ++ [m])) z left := by
    intro z hz
    rcases hz with hz | hz
    · exact hmono hz
    · exact .trans _ _ _ (hmono hz) (.rel _ _ ⟨m, by simp, hright, hleft⟩)
  constructor
  · intro hxy
    rcases (hg x y).mp hxy with hxy | ⟨hx, hy⟩
    · exact hmono hxy
    · exact .trans _ _ _ (hend hx) (.symm _ _ (hend hy))
  · refine fun hxy => Setoid.eqvGen_le (s := Setoid.ker g) ?_ hxy
    rintro x y ⟨other, hother, hx, hy⟩
    rcases List.mem_append.mp hother with hold | hlast
    · exact (hg x y).mpr (.inl (hf.mpr (.rel _ _ ⟨other, hold, hx, hy⟩)))
    · rw [List.mem_singleton.mp hlast] at hx hy
      exact (hg x y).mpr (.inr ⟨hbelow hx, hbelow hy⟩)

end Dendrogram

/-! ### One merge -/

namespace Joining

open Dendrogram

variable {s t : Joining} {tree : Dendrogram α} {merges : List (Merge α)} {m : Merge α} {n k : Nat}

/-- The classes of leaves are those that the merges describe. -/
structure Follows (s : Joining) (tree : Dendrogram α) (merges : List (Merge α)) : Prop where
  sized : s.Sized tree.leaves merges.length
  represented : ∀ {id r : Nat}, s.representatives[id]? = some r → r ∈ tree.leavesBelow id
  /-- The blocks below a cluster are in one class. -/
  joined : ∀ {id x y : Nat}, id < tree.leaves + merges.length → x ∈ tree.leavesBelow id →
    y ∈ tree.leavesBelow id → s.forest.rootOf x = s.forest.rootOf y
  same_class_iff : ∀ {x y : Nat},
    s.forest.rootOf x = s.forest.rootOf y ↔ EqvGen (tree.Joins merges) x y

theorem follows_start (tree : Dendrogram α) : (start tree.leaves).Follows tree [] where
  sized := sized_start tree.leaves
  represented := by
    intro id r h
    obtain ⟨hlt, rfl⟩ := Array.getElem?_eq_some_iff.mp h
    have hlt : id < tree.leaves := by simpa [start] using hlt
    rw [show tree.leavesBelow id = {id} from leavesBelow_leaf tree.merges hlt]
    simp [start]
  joined := by
    intro id x y hid hx hy
    rw [show tree.leavesBelow id = {id} from leavesBelow_leaf tree.merges hid,
      Finset.mem_singleton] at hx hy
    rw [hx, hy]
  same_class_iff := by
    intro x y
    rw [start, Forest.rootOf_discrete, Forest.rootOf_discrete]
    constructor
    · rintro rfl
      exact .refl x
    · refine fun hxy => Setoid.eqvGen_le (s := Setoid.ker id) ?_ hxy
      rintro x y ⟨m, hm, -⟩
      cases hm

/-- Both clusters of a merge that names earlier ones have a representative. -/
theorem Sized.exists_representatives (hs : s.Sized n k) (hm : m.NamesBelow (n + k)) :
    ∃ left right, s.representatives[m.left]? = some left ∧
      s.representatives[m.right]? = some right :=
  ⟨_, _, Array.getElem?_eq_getElem (hs.size_representatives ▸ hm.1),
    Array.getElem?_eq_getElem (hs.size_representatives ▸ hm.2)⟩

/-- **A merge of clusters that exist** is followed. -/
theorem Follows.apply (h : s.Follows tree merges) (hk : tree.merges[merges.length]? = some m)
    (hm : m.NamesBelow (tree.leaves + merges.length)) :
    ∃ t, s.apply m = .ok t ∧ t.Follows tree (merges ++ [m]) := by
  obtain ⟨left, right, hleft, hright⟩ := h.sized.exists_representatives hm
  obtain ⟨t, happly, hsized, hrepresentatives, hsame, -⟩ := apply_of_some h.sized hleft hright
  have hunion := leavesBelow_merge hk hm
  have hlength : (merges ++ [m]).length = merges.length + 1 := by simp
  have hleftmem := h.represented hleft
  have hrightmem := h.represented hright
  -- what is below the new cluster was in one of the two classes
  have hbelow : ∀ {x}, x ∈ tree.leavesBelow m.left ∪ tree.leavesBelow m.right →
      s.forest.rootOf x = s.forest.rootOf left ∨ s.forest.rootOf x = s.forest.rootOf right := by
    intro x hx
    rcases Finset.mem_union.mp hx with hx | hx
    · exact .inl (h.joined hm.1 hx hleftmem)
    · exact .inr (h.joined hm.2 hx hrightmem)
  refine ⟨t, happly, ?_, ?_, ?_, ?_⟩
  · -- sized
    rwa [hlength]
  · -- represented
    intro id r hr
    rw [hrepresentatives, Array.getElem?_push] at hr
    split at hr
    · rename_i hid
      rw [hid, h.sized.size_representatives, hunion, ← Option.some.inj hr]
      exact Finset.mem_union_left _ hleftmem
    · exact h.represented hr
  · -- joined
    intro id x y hid hx hy
    rcases Nat.lt_or_ge id (tree.leaves + merges.length) with hlt | hge
    · exact (hsame x y).mpr (.inl (h.joined hlt hx hy))
    · obtain rfl : id = tree.leaves + merges.length := by omega
      rw [hunion] at hx hy
      exact (hsame x y).mpr (.inr ⟨hbelow hx, hbelow hy⟩)
  · -- same_class_iff
    exact eqvGen_joins_concat h.same_class_iff hsame (Finset.mem_union_left _ hleftmem)
      (Finset.mem_union_right _ hrightmem) hbelow

/-- **A merge that names any other cluster** is an error. -/
theorem Sized.apply_of_not_namesBelow (hs : s.Sized n k) (hm : ¬ m.NamesBelow (n + k)) :
    s.apply m = .error (.shapeMismatch (.unknownCluster m.left m.right)) := by
  unfold Joining.apply
  rcases Classical.not_and_iff_not_or_not.mp hm with hm | hm <;>
    rw [Nat.not_lt, ← hs.size_representatives] at hm
  · rw [Array.getElem?_eq_none hm]
  · rw [Array.getElem?_eq_none hm]
    cases s.representatives[m.left]? <;> rfl

/-! ### Lists of merges -/

/-- **Merges that name earlier clusters** are followed one after the other. -/
theorem exists_follows (hpre : merges <+: tree.merges)
    (h : NamesEarlier tree.leaves merges) :
    ∃ s, (start tree.leaves).applyAll merges = .ok s ∧ s.Follows tree merges := by
  induction merges using List.reverseRecOn with
  | nil => exact ⟨_, rfl, follows_start tree⟩
  | append_singleton merges m ih =>
      obtain ⟨hmerges, hm⟩ := namesEarlier_concat_iff.mp h
      obtain ⟨s, hs, hfollows⟩ := ih ((List.prefix_append _ _).trans hpre) hmerges
      have hk : tree.merges[merges.length]? = some m := by
        obtain ⟨rest, hrest⟩ := hpre
        rw [← hrest]
        simp
      obtain ⟨t, happly, ht⟩ := hfollows.apply hk hm
      refine ⟨t, ?_, ht⟩
      rw [applyAll_append, hs]
      simp only [applyAll, happly]

/-- **The first merge that names any other cluster** ends the list with an error. -/
theorem exists_error (h : ¬ NamesEarlier n merges) :
    ∃ first m rest, merges = first ++ m :: rest ∧ NamesEarlier n first ∧
      ¬ m.NamesBelow (n + first.length) ∧ (start n).applyAll merges =
        .error (.shapeMismatch (.unknownCluster m.left m.right)) := by
  induction merges using List.reverseRecOn with
  | nil => exact absurd (fun k m hk => by simp at hk) h
  | append_singleton merges m ih =>
      by_cases hmerges : NamesEarlier n merges
      · have hm : ¬ m.NamesBelow (n + merges.length) := fun hm =>
          h (namesEarlier_concat_iff.mpr ⟨hmerges, hm⟩)
        have hpre : merges <+: (Dendrogram.mk n (merges ++ [m])).merges := List.prefix_append _ _
        obtain ⟨s, hs, hfollows⟩ := exists_follows hpre hmerges
        refine ⟨merges, m, [], rfl, hmerges, hm, ?_⟩
        rw [applyAll_append, show (start n).applyAll merges = .ok s from hs]
        simp only [applyAll, hfollows.sized.apply_of_not_namesBelow hm]
      · obtain ⟨first, other, rest, rfl, hfirst, hother, herror⟩ := ih hmerges
        refine ⟨first, other, rest ++ [m], ?_, hfirst, hother, ?_⟩
        · rw [List.append_assoc, List.cons_append]
        · rw [applyAll_append, herror]

/-! ### Labels -/

section labels

variable {ids : List BlockId}

theorem values_assignment (s : Joining) (hids : ids.Nodup) :
    (s.assignment ids).values =
      numberClasses [] ((List.range ids.length).map s.forest.rootOf) := by
  rw [Roster.values, assignment, Assignment.entries_ofLabels hids (s.length_labels ids),
    List.map_snd_zip (s.length_labels ids).ge, Forest.roots_eq]

/-- Blocks are labelled in order of first appearance. -/
theorem exists_numbered (s : Joining) (hids : ids.Nodup) :
    ∃ last, Numbered 0 (s.assignment ids).values last := by
  rw [s.values_assignment hids]
  exact exists_numbered_numberClasses [] _

/-- **What follows merges is labelled by their partition.** -/
theorem Follows.isPartition (h : s.Follows tree merges) (hids : ids.Nodup) :
    tree.IsPartition merges ids (s.assignment ids) := by
  obtain ⟨last, hnumbered⟩ := s.exists_numbered hids
  refine ⟨Assignment.ids_ofLabels hids (s.length_labels ids), ?_, ?_, ?_, ?_⟩
  · intro i j x y hi hj
    rw [get?_assignment_eq_iff hids hi hj, h.same_class_iff]
  · intro label hlabel
    rw [List.head?_eq_getElem?] at hlabel
    have hpos := (hnumbered.of_mem (List.mem_of_getElem? hlabel)).1
    have hle : label ≤ 0 + 1 := hnumbered.le_of_getElem? hlabel
    omega
  · exact fun label hlabel => (hnumbered.of_mem hlabel).1
  · exact fun i label hlabel => hnumbered.le_of_getElem? hlabel

end labels

end Joining

/-- A root is the smallest number of its class, so the classes determine the roots. -/
theorem Forest.rootOf_eq_of_same_class {f g : Forest} {n x : Nat}
    (h : ∀ x < n, ∀ y < n, f.rootOf x = f.rootOf y ↔ g.rootOf x = g.rootOf y) (hx : x < n) :
    f.rootOf x = g.rootOf x := by
  have hf : f.rootOf x < n := (f.rootOf_le x).trans_lt hx
  have hg : g.rootOf x < n := (g.rootOf_le x).trans_lt hx
  have hsame : g.rootOf (f.rootOf x) = g.rootOf x := (h _ hf _ hx).mp (f.rootOf_rootOf x)
  have hsame' : f.rootOf (g.rootOf x) = f.rootOf x := (h _ hg _ hx).mpr (g.rootOf_rootOf x)
  exact le_antisymm (hsame' ▸ f.rootOf_le _) (hsame ▸ g.rootOf_le _)

/-- **The partition determines the labels.** -/
theorem Joining.assignment_eq_of_same_labels {s t : Joining} {ids : List BlockId} (hids : ids.Nodup)
    (h : ∀ x ∈ ids, ∀ y ∈ ids, (s.assignment ids).get? x = (s.assignment ids).get? y ↔
      (t.assignment ids).get? x = (t.assignment ids).get? y) :
    s.assignment ids = t.assignment ids := by
  have hclasses : ∀ i < ids.length, ∀ j < ids.length,
      s.forest.rootOf i = s.forest.rootOf j ↔ t.forest.rootOf i = t.forest.rootOf j := by
    intro i hi j hj
    have hi' := List.getElem?_eq_getElem hi
    have hj' := List.getElem?_eq_getElem hj
    rw [← get?_assignment_eq_iff hids hi' hj', ← get?_assignment_eq_iff hids hi' hj']
    exact h _ (List.getElem_mem hi) _ (List.getElem_mem hj)
  have hroots : (List.range ids.length).map s.forest.rootOf =
      (List.range ids.length).map t.forest.rootOf :=
    List.map_congr_left fun i hi =>
      Forest.rootOf_eq_of_same_class hclasses (List.mem_range.mp hi)
  rw [assignment, assignment, Forest.roots_eq, Forest.roots_eq, hroots]

/-! ### Cuts -/

namespace Dendrogram

variable [Scalar α]

theorem getElem?_of_appliedMerges {tree : Dendrogram α} {threshold : α} {k : Nat} {m : Merge α}
    (hk : (tree.appliedMerges threshold)[k]? = some m) : tree.merges[k]? = some m := by
  obtain ⟨hlt, rfl⟩ := List.getElem?_eq_some_iff.mp hk
  exact List.prefix_iff_getElem?.mp (List.takeWhile_prefix _) k hlt

/-- **A cut computes exactly the partition that its merges describe**, for any dendrogram over
different blocks and any threshold that is a number. If an applied merge names a cluster that does
not exist before it, the cut fails with the first such merge. Otherwise two blocks get the same
label exactly where the smallest equivalence relation that puts together what is below each applied
merge relates them, and labels are numbered in the order in which the blocks first have them. So
cuts with the same partition are equal. No cut reads or writes a table outside its bounds. -/
theorem cut_isPartition (tree : Dendrogram α) (ids : List BlockId) (threshold : α) :
    tree.checkedCut ids threshold = some (tree.cut ids threshold) ∧
    (ids.Nodup → tree.leaves = ids.length → isNaN threshold = false →
      (¬ NamesEarlier tree.leaves (tree.appliedMerges threshold) →
        ∃ first m rest, tree.appliedMerges threshold = first ++ m :: rest ∧
          NamesEarlier tree.leaves first ∧ ¬ m.NamesBelow (tree.leaves + first.length) ∧
          tree.cut ids threshold = .error (.shapeMismatch (.unknownCluster m.left m.right))) ∧
      (NamesEarlier tree.leaves (tree.appliedMerges threshold) →
        (∀ leaf < tree.leaves, tree.leavesBelow leaf = {leaf}) ∧
        (∀ (k : Nat) (m : Merge α), (tree.appliedMerges threshold)[k]? = some m →
          tree.leavesBelow (tree.clusterId k) =
            tree.leavesBelow m.left ∪ tree.leavesBelow m.right) ∧
        ∃ flat, tree.cut ids threshold = .ok flat ∧
          tree.IsPartition (tree.appliedMerges threshold) ids flat) ∧
      ∀ (other : Dendrogram α) (otherThreshold : α) (flat otherFlat : Assignment),
        tree.cut ids threshold = .ok flat → other.cut ids otherThreshold = .ok otherFlat →
        (∀ x ∈ ids, ∀ y ∈ ids,
          flat.get? x = flat.get? y ↔ otherFlat.get? x = otherFlat.get? y) →
        flat = otherFlat) := by
  refine ⟨checkedCut_eq tree ids threshold, fun hids hleaves hnan => ⟨?_, ?_, ?_⟩⟩
  · intro hearlier
    obtain ⟨first, m, rest, hsplit, hfirst, hm, herror⟩ := Joining.exists_error hearlier
    refine ⟨first, m, rest, hsplit, hfirst, hm, ?_⟩
    rw [cut, if_neg (not_not.mpr hleaves), if_neg (by simp [hnan]), herror]
  · intro hearlier
    obtain ⟨joined, happly, hfollows⟩ :=
      Joining.exists_follows (List.takeWhile_prefix _) hearlier
    refine ⟨fun leaf => leavesBelow_leaf tree.merges, ?_, joined.assignment ids,
      cut_eq_ok_iff.mpr ⟨hleaves, hnan, joined, happly, rfl⟩, hfollows.isPartition hids⟩
    intro k m hk
    exact leavesBelow_merge (getElem?_of_appliedMerges hk) (hearlier k m hk)
  · intro other otherThreshold flat otherFlat hflat hother hsame
    obtain ⟨-, -, joined, -, rfl⟩ := cut_eq_ok_iff.mp hflat
    obtain ⟨-, -, otherJoined, -, rfl⟩ := cut_eq_ok_iff.mp hother
    exact Joining.assignment_eq_of_same_labels hids hsame

/-- Merges that no agglomeration gives: the distances are out of order, a cluster is taken twice and
another one merged with itself. The last merge names clusters that do not exist. -/
def tangled : Dendrogram Float where
  leaves := 4
  merges := [⟨1, 2, 2, 2⟩, ⟨4, 0, 1, 3⟩, ⟨5, 5, 0, 6⟩, ⟨1, 2, 3, 2⟩, ⟨9, 17, 5, 2⟩]

/-- At 3 the first three blocks are together; at 6 the last merge is reached. -/
theorem tangled_cut_isPartition :
    ScoreMatrix.fourBlocks.ids.Nodup ∧ tangled.leaves = ScoreMatrix.fourBlocks.ids.length ∧
    isNaN (3 : Float) = false ∧ isNaN (6 : Float) = false ∧
    NamesEarlier tangled.leaves (tangled.appliedMerges 3) ∧
    ¬ NamesEarlier tangled.leaves (tangled.appliedMerges 6) ∧
    (∃ flat, tangled.cut ScoreMatrix.fourBlocks.ids 3 = .ok flat ∧
      flat.get? ⟨"a"⟩ = flat.get? ⟨"c"⟩ ∧ flat.get? ⟨"a"⟩ ≠ flat.get? ⟨"d"⟩) ∧
    tangled.cut ScoreMatrix.fourBlocks.ids 6 =
      .error (.shapeMismatch (.unknownCluster 9 17)) := by
  have hids : ScoreMatrix.fourBlocks.ids.Nodup := by decide
  have hnan : isNaN (3 : Float) = false ∧ isNaN (6 : Float) = false := by decide +kernel
  have hlow : NamesEarlier tangled.leaves (tangled.appliedMerges 3) := by decide +kernel
  have hhigh : ¬ NamesEarlier tangled.leaves (tangled.appliedMerges 6) := by decide +kernel
  obtain ⟨-, hpartition, -⟩ :=
    (cut_isPartition tangled ScoreMatrix.fourBlocks.ids 3).2 hids rfl hnan.1
  obtain ⟨herror, -, -⟩ :=
    (cut_isPartition tangled ScoreMatrix.fourBlocks.ids 6).2 hids rfl hnan.2
  obtain ⟨-, -, flat, hcut, hflat⟩ := hpartition hlow
  refine ⟨hids, rfl, hnan.1, hnan.2, hlow, hhigh, ⟨flat, hcut, ?_, ?_⟩, ?_⟩
  · -- the second merge puts the first and the third block together
    have hjoins : ∃ m ∈ tangled.appliedMerges 3,
        0 ∈ tangled.leavesBelow m.left ∪ tangled.leavesBelow m.right ∧
          2 ∈ tangled.leavesBelow m.left ∪ tangled.leavesBelow m.right := by
      decide +kernel
    exact (hflat.same_label_iff (i := 0) (j := 2) rfl rfl).mpr (.rel _ _ hjoins)
  · -- no merge reaches the last block
    have hnone : ∀ m ∈ tangled.appliedMerges 3,
        3 ∉ tangled.leavesBelow m.left ∪ tangled.leavesBelow m.right := by
      decide +kernel
    intro hsame
    have hrelated := (hflat.same_label_iff (i := 0) (j := 3) rfl rfl).mp hsame
    have hlast : (0 = 3) = (3 = 3) := by
      refine Setoid.eqvGen_le (s := Setoid.ker (· = 3)) ?_ hrelated
      rintro x y ⟨m, hm, hx, hy⟩
      have hx3 : x ≠ 3 := fun h => hnone m hm (h ▸ hx)
      have hy3 : y ≠ 3 := fun h => hnone m hm (h ▸ hy)
      simp [hx3, hy3]
    simp at hlast
  · obtain ⟨first, m, rest, hsplit, -, hm, hcut⟩ := herror hhigh
    -- the other merges name earlier clusters
    have hmerges : ∀ k : Fin (tangled.appliedMerges 6).length,
        ¬ (tangled.appliedMerges 6)[k].NamesBelow (tangled.leaves + k) →
          (tangled.appliedMerges 6)[k].left = 9 ∧ (tangled.appliedMerges 6)[k].right = 17 := by
      decide +kernel
    have hk : (tangled.appliedMerges 6)[first.length]? = some m := by simp [hsplit]
    obtain ⟨hlt, rfl⟩ := List.getElem?_eq_some_iff.mp hk
    obtain ⟨hleft, hright⟩ := hmerges ⟨first.length, hlt⟩ hm
    rw [hcut]
    exact hleft ▸ hright ▸ rfl

end Dendrogram

end BlockAffinity
