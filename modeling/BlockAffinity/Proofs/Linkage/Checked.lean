import BlockAffinity.Proofs.Linkage.Cut

/-!
# BlockAffinity.Proofs.Linkage.Checked

**A cut never reaches outside its tables.** The cut with each look-up checked: `none` as soon as a
place is read or written that its table does not have. The labels of the roots stand in a table of
their own here, with zero for none.

Every checked step gives what the plain step gives, as long as the numbers that it starts from are
in the forest (`Forest.checkedFind_eq`), and along a list of merges they always are
(`Joining.checkedApplyAll_eq`). So the checked cut is the cut, for any dendrogram
(`Dendrogram.checkedCut_eq`).
-/

namespace BlockAffinity

variable {α : Type}

/-! ### Walks and links -/

namespace Forest

theorem le_of_getElem?_parent {f : Forest} {x y : Nat} (h : f.parent[x]? = some y) : y ≤ x := by
  obtain ⟨hlt, rfl⟩ := Array.getElem?_eq_some_iff.mp h
  exact f.descends x hlt

/-- A walk to the root. -/
def checkedFind (f : Forest) (x : Nat) : Option (Nat × Forest) :=
  match hup : f.parent[x]? with
  | none => none
  | some up =>
      if up = x then some (x, f)
      else
        match hnext : f.parent[up]? with
        | none => none
        | some next =>
            checkedFind (f.redirect x next
              ((le_of_getElem?_parent hnext).trans (le_of_getElem?_parent hup))) next
termination_by x
decreasing_by
  have hle := le_of_getElem?_parent hup
  have hle' := le_of_getElem?_parent hnext
  omega

/-- Joins the classes of two roots. -/
def checkedLink (f : Forest) (x y : Nat) : Option Forest :=
  if max x y < f.size then some (f.link x y) else none

/-- The labels of numbers; `next` is the next new label. -/
def checkedLabels (f : Forest) (labelOfRoot : Array Nat) (next : Nat) : List Nat → Option (List Nat)
  | [] => some []
  | x :: rest => do
      let (root, g) ← f.checkedFind x
      let label ← labelOfRoot[root]?
      if label = 0 then
        let labels ← g.checkedLabels (labelOfRoot.setIfInBounds root next) (next + 1) rest
        return next :: labels
      else
        let labels ← g.checkedLabels labelOfRoot next rest
        return label :: labels

variable {f : Forest} {x y n : Nat}

theorem getElem?_parent (h : x < f.size) : f.parent[x]? = some (f.up x) := by
  have hlt : x < f.parent.size := h
  rw [up, Array.getD_eq_getD_getElem?, Array.getElem?_eq_getElem hlt, Option.getD_some]

/-- **A walk stays in the forest.** -/
theorem checkedFind_eq (h : x < f.size) : f.checkedFind x = some (f.find x) := by
  fun_induction f.find x with
  | case1 f x hup =>
      rw [checkedFind]
      split
      · rename_i hnone
        rw [getElem?_parent h] at hnone
        cases hnone
      · rename_i up hsome
        rw [getElem?_parent h, Option.some.injEq] at hsome
        rw [if_pos (hsome.symm.trans hup)]
  | case2 f x hup next ih =>
      have hlt : f.up x < f.size := (f.up_le x).trans_lt h
      have hnext : next < f.size := (f.up_le _).trans_lt hlt
      rw [checkedFind]
      split
      · rename_i hnone
        rw [getElem?_parent h] at hnone
        cases hnone
      · rename_i up hsome
        rw [getElem?_parent h, Option.some.injEq] at hsome
        subst hsome
        rw [if_neg hup]
        split
        · rename_i hnone
          rw [getElem?_parent hlt] at hnone
          cases hnone
        · rename_i found hsome
          rw [getElem?_parent hlt, Option.some.injEq] at hsome
          subst hsome
          exact ih (by rwa [size_redirect])

theorem checkedLink_eq (hx : x < f.size) (hy : y < f.size) :
    f.checkedLink x y = some (f.link x y) := if_pos (max_lt hx hy)

/-- The table has the labels of the classes seen so far. -/
def Labelled (labelOfRoot : Array Nat) (n : Nat) (seen : List Nat) : Prop :=
  labelOfRoot.size = n ∧
    ∀ root < n, labelOfRoot[root]? = some ((seen.findIdx? (· == root)).elim 0 (· + 1))

theorem labelled_replicate (n : Nat) : Labelled (Array.replicate n 0) n [] := by
  refine ⟨Array.size_replicate, fun root hroot => ?_⟩
  rw [Array.getElem?_replicate, if_pos hroot]
  rfl

theorem Labelled.concat {labelOfRoot : Array Nat} {seen : List Nat} {root : Nat}
    (h : Labelled labelOfRoot n seen) (hnew : seen.findIdx? (· == root) = none) :
    Labelled (labelOfRoot.setIfInBounds root (seen.length + 1)) n (seen ++ [root]) := by
  refine ⟨(Array.size_setIfInBounds ..).trans h.1, fun other hother => ?_⟩
  rw [Array.getElem?_setIfInBounds, List.findIdx?_append]
  by_cases heq : root = other
  · subst heq
    rw [if_pos rfl, if_pos (h.1 ▸ hother), hnew]
    simp
  · rw [if_neg heq, h.2 other hother]
    cases hfind : seen.findIdx? (· == other) with
    | some i => rfl
    | none => simp [heq]

/-- **The table numbers classes** in the order in which they first appear. -/
theorem checkedLabels_eq {labelOfRoot : Array Nat} {seen xs : List Nat} (hsize : f.size = n)
    (htable : Labelled labelOfRoot n seen) (hxs : ∀ x ∈ xs, x < n) :
    f.checkedLabels labelOfRoot (seen.length + 1) xs =
      some (numberClasses seen (f.roots xs)) := by
  induction xs generalizing f labelOfRoot seen with
  | nil => rfl
  | cons x xs ih =>
      have hx := hxs x List.mem_cons_self
      obtain ⟨hroot, -, hkept⟩ := f.find_spec x
      have hlt : (f.find x).1 < n := hroot ▸ (f.rootOf_le x).trans_lt hx
      have hsize' := hkept.trans hsize
      have hrest : ∀ y ∈ xs, y < n := fun y hy => hxs y (List.mem_cons_of_mem _ hy)
      rw [checkedLabels, checkedFind_eq (hsize ▸ hx), roots, numberClasses]
      simp only [Option.bind_eq_bind, Option.bind_some, htable.2 _ hlt]
      cases hfind : seen.findIdx? (· == (f.find x).1) with
      | some i =>
          have ih := ih hsize' htable hrest
          simp only [Option.elim_some, Nat.succ_ne_zero, if_false, ih, Option.bind_some]
          rfl
      | none =>
          have ih := ih hsize' (htable.concat hfind) hrest
          rw [List.length_append, List.length_singleton] at ih
          simp only [Option.elim_none, if_true, ih, Option.bind_some]
          rfl

end Forest

/-! ### Merges -/

namespace Joining

/-- Applies a merge. -/
def checkedApply (s : Joining) (m : Merge α) : Option (Except (Fault α) Joining) :=
  match s.representatives[m.left]?, s.representatives[m.right]? with
  | some left, some right => do
      let (rootLeft, forest) ← s.forest.checkedFind left
      let (rootRight, forest) ← forest.checkedFind right
      let forest ← forest.checkedLink rootLeft rootRight
      return .ok ⟨forest, s.representatives.push left⟩
  | _, _ => some (.error (.shapeMismatch (.unknownCluster m.left m.right)))

/-- Applies merges one after the other. -/
def checkedApplyAll (s : Joining) : List (Merge α) → Option (Except (Fault α) Joining)
  | [] => some (.ok s)
  | m :: rest => do
      match ← s.checkedApply m with
      | .error fault => return .error fault
      | .ok t => t.checkedApplyAll rest

variable {s : Joining} {n k : Nat}

theorem checkedApply_eq (hs : s.Sized n k) (m : Merge α) :
    s.checkedApply m = some (s.apply m) := by
  unfold checkedApply apply
  cases hleft : s.representatives[m.left]? with
  | none => rfl
  | some left =>
      cases hright : s.representatives[m.right]? with
      | none => rfl
      | some right =>
          obtain ⟨hroot₁, -, hsize₁⟩ := s.forest.find_spec left
          obtain ⟨hroot₂, -, hsize₂⟩ := (s.forest.find left).2.find_spec right
          have hl : left < s.forest.size := hs.size_forest ▸ hs.leaf hleft
          have hr : right < s.forest.size := hs.size_forest ▸ hs.leaf hright
          have hrootLeft : (s.forest.find left).1 < ((s.forest.find left).2.find right).2.size := by
            rw [hsize₂, hsize₁, hroot₁]
            exact (s.forest.rootOf_le left).trans_lt hl
          have hrootRight : ((s.forest.find left).2.find right).1 <
              ((s.forest.find left).2.find right).2.size := by
            rw [hsize₂, hsize₁, hroot₂]
            exact (Forest.rootOf_le _ right).trans_lt hr
          simp only [Option.bind_eq_bind, Forest.checkedFind_eq hl, Option.bind_some,
            Forest.checkedFind_eq (hsize₁.symm ▸ hr), Forest.checkedLink_eq hrootLeft hrootRight]
          rfl

/-- **Merges reach no number outside the forest**, whatever clusters they name. -/
theorem checkedApplyAll_eq (hs : s.Sized n k) (merges : List (Merge α)) :
    s.checkedApplyAll merges = some (s.applyAll merges) := by
  induction merges generalizing s k with
  | nil => rfl
  | cons m merges ih =>
      rw [checkedApplyAll, checkedApply_eq hs, applyAll]
      simp only [Option.bind_eq_bind, Option.bind_some]
      cases happly : s.apply m with
      | error fault => rfl
      | ok t =>
          obtain ⟨left, right, hleft, hright⟩ := some_of_apply happly
          obtain ⟨u, hu, hsized, -⟩ := apply_of_some hs hleft hright
          obtain rfl := Except.ok.inj (happly.symm.trans hu)
          exact ih hsized

end Joining

/-! ### Cuts -/

namespace Dendrogram

variable [Scalar α]

open Scalar

/-- Cuts a dendrogram over the given blocks at a threshold. -/
def checkedCut (tree : Dendrogram α) (ids : List BlockId) (threshold : α) :
    Option (Except (Fault α) Assignment) :=
  if tree.leaves ≠ ids.length then
    some (.error (.shapeMismatch (.leafCount tree.leaves ids.length)))
  else if isNaN threshold then some (.error (.settings .cutUndefined))
  else do
    match ← (Joining.start tree.leaves).checkedApplyAll (tree.appliedMerges threshold) with
    | .error fault => return .error fault
    | .ok joined =>
        let labels ← joined.forest.checkedLabels (Array.replicate tree.leaves 0) 1
          (List.range tree.leaves)
        return .ok (.ofLabels ids labels)

/-- **A cut never reaches outside its tables**, for any dendrogram. -/
theorem checkedCut_eq (tree : Dendrogram α) (ids : List BlockId) (threshold : α) :
    tree.checkedCut ids threshold = some (tree.cut ids threshold) := by
  unfold checkedCut cut
  split
  · rfl
  · split
    · rfl
    · have hstart := Joining.sized_start tree.leaves
      rw [Joining.checkedApplyAll_eq hstart, Option.bind_eq_bind, Option.bind_some]
      cases happly : (Joining.start tree.leaves).applyAll (tree.appliedMerges threshold) with
      | error fault => rfl
      | ok joined =>
          obtain ⟨hsized, -⟩ := Joining.of_applyAll hstart happly
          have hlabels := Forest.checkedLabels_eq hsized.size_forest
            (Forest.labelled_replicate tree.leaves) fun x => List.mem_range.mp
          rw [List.length_nil, Nat.zero_add] at hlabels
          simp only [Option.bind_eq_bind, hlabels, Option.bind_some]
          rfl

end Dendrogram

end BlockAffinity
