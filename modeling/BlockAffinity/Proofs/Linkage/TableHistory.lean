import BlockAffinity.Proofs.Linkage.Checked
import Mathlib.Data.PFun
import Mathlib.Logic.Relation

/-!
# BlockAffinity.Proofs.Linkage.TableHistory

**Walks on tables of which nothing is known.** A forest comes with a proof that its numbers point to
numbers that are not larger, and its walks rely on it to end. Here walks, merges and cuts work on a
plain table, and every table that there has been is kept (`TableHistory`). They have no result as
soon as a place is read or written that the table does not have, and a walk whose rounds never end
has none either (`TableHistory.find`).

If every number points to one that is not larger (`Descends`), a walk goes through: it does what the
walk on the forest does, each of its rounds starts from a smaller number, and the tables that it
writes have all roots where they were (`exists_find`). A history that has followed a forest so far
(`Tracks`) goes on to follow it through walks, joins and merges, for any dendrogram; so every table
in the course of a cut descends (`Dendrogram.exists_cutWithTables`).
-/

namespace BlockAffinity

/-- Every number points to one that is not larger. -/
def Descends (table : Array Nat) : Prop := ∀ x (h : x < table.size), table[x] ≤ x

/-- Following the table from `x` leads to `root`, which points to itself. -/
def HasRoot (table : Array Nat) (x root : Nat) : Prop :=
  Relation.ReflTransGen (fun a b => table[a]? = some b) x root ∧ table[root]? = some root

/-- A table that descends, of the size of another one and with the same roots. -/
structure Reshapes (table other : Array Nat) : Prop where
  size_eq : other.size = table.size
  descends : Descends other
  hasRoot_iff : ∀ x root, HasRoot other x root ↔ HasRoot table x root

theorem Reshapes.trans {a b c : Array Nat} (hab : Reshapes a b) (hbc : Reshapes b c) :
    Reshapes a c where
  size_eq := hbc.size_eq.trans hab.size_eq
  descends := hbc.descends
  hasRoot_iff x root := (hbc.hasRoot_iff x root).trans (hab.hasRoot_iff x root)

/-! ### Roots of a forest -/

namespace Forest

variable {f g : Forest} {x y root : Nat}

theorem up_of_getElem?_parent (h : f.parent[x]? = some y) : f.up x = y := by
  rw [up, Array.getD_eq_getD_getElem?, h, Option.getD_some]

theorem lt_size_of_getElem?_parent (h : f.parent[x]? = some y) : x < f.size :=
  (Array.getElem?_eq_some_iff.mp h).1

theorem hasRoot_rootOf (h : x < f.size) : HasRoot f.parent x (f.rootOf x) := by
  induction x using Nat.strongRecOn with
  | ind x ih =>
      by_cases hup : f.up x = x
      · rw [rootOf_of_up_eq hup]
        refine ⟨.refl, ?_⟩
        rw [getElem?_parent h, hup]
      · rw [rootOf_of_up_ne hup]
        obtain ⟨hway, hroot⟩ := ih _ (up_lt hup) ((up_lt hup).trans h)
        exact ⟨.head (getElem?_parent h) hway, hroot⟩

theorem rootOf_of_hasRoot (h : HasRoot f.parent x root) : f.rootOf x = root := by
  obtain ⟨hway, hroot⟩ := h
  induction hway using Relation.ReflTransGen.head_induction_on with
  | refl => exact rootOf_of_up_eq (up_of_getElem?_parent hroot)
  | head hstep _ ih => rw [← rootOf_up, up_of_getElem?_parent hstep, ih]

/-- **The root is the only fixed point** that the table leads to. -/
theorem hasRoot_iff : HasRoot f.parent x root ↔ x < f.size ∧ f.rootOf x = root := by
  constructor
  · intro h
    refine ⟨?_, rootOf_of_hasRoot h⟩
    rcases Relation.ReflTransGen.cases_head h.1 with rfl | ⟨_, hstep, -⟩
    · exact lt_size_of_getElem?_parent h.2
    · exact lt_size_of_getElem?_parent hstep
  · rintro ⟨hlt, rfl⟩
    exact hasRoot_rootOf hlt

theorem reshapes_of_rootOf_eq (hsize : g.size = f.size) (hroots : g.rootOf = f.rootOf) :
    Reshapes f.parent g.parent where
  size_eq := hsize
  descends := g.descends
  hasRoot_iff x root := by rw [hasRoot_iff, hasRoot_iff, hsize, hroots]

end Forest

/-! ### Walks -/

/-- A table, and what it was before each time it was written, the latest first. -/
structure TableHistory where
  now : Array Nat
  before : List (Array Nat)

namespace TableHistory

/-- A table that has not been written. -/
def start (table : Array Nat) : TableHistory := ⟨table, []⟩

/-- All tables that there have been. -/
def tables (h : TableHistory) : List (Array Nat) := h.now :: h.before

/-- Writes a place of the table. -/
def write (h : TableHistory) (x y : Nat) : Option TableHistory :=
  if x < h.now.size then some ⟨h.now.setIfInBounds x y, h.tables⟩ else none

/-- One round of a walk. A number that points to itself ends it. Any other one is made to point to
the one two steps up, where the walk goes on. -/
def round (h : TableHistory) (x : Nat) :
    Option (Nat × TableHistory ⊕ TableHistory × Nat) := do
  let up ← h.now[x]?
  if up = x then return .inl (x, h)
  let next ← h.now[up]?
  let h ← h.write x next
  return .inr (h, next)

/-- Walks to a number that points to itself. There is no result if the walk leaves the table, nor if
its rounds never end. -/
def find (h : TableHistory) (x : Nat) : Part (Nat × TableHistory) :=
  PFun.fix (fun (h, x) => Part.ofOption (round h x)) (h, x)

/-- Joins the classes of two numbers. -/
def join (h : TableHistory) (x y : Nat) : Part TableHistory := do
  let (rootX, h) ← h.find x
  let (rootY, h) ← h.find y
  Part.ofOption (h.write (max rootX rootY) (min rootX rootY))

variable {f : Forest} {h before : TableHistory} {x y up next : Nat}

/-- A walk from a number that points to itself is over. -/
theorem find_of_eq (hup : h.now[x]? = some x) : h.find x = .some (x, h) := by
  have hround : h.round x = some (.inl (x, h)) := by
    rw [round, hup, Option.bind_eq_bind, Option.bind_some, if_pos rfl]
    rfl
  exact Part.eq_some_iff.mpr (PFun.fix_stop (Part.mem_ofOption.mpr hround))

/-- A walk from any other number goes on two steps up. -/
theorem find_of_ne (hup : h.now[x]? = some up) (hne : up ≠ x) (hnext : h.now[up]? = some next) :
    h.find x = find ⟨h.now.setIfInBounds x next, h.tables⟩ next := by
  have hlt : x < h.now.size := (Array.getElem?_eq_some_iff.mp hup).1
  have hround : h.round x = some (.inr (⟨h.now.setIfInBounds x next, h.tables⟩, next)) := by
    rw [round, hup, Option.bind_eq_bind, Option.bind_some, if_neg hne]
    simp only [hnext, write, if_pos hlt, Option.bind_eq_bind, Option.bind_some]
    rfl
  exact PFun.fix_fwd_eq (Part.mem_ofOption.mpr hround)

/-- **A walk on a table that descends** ends where the walk on the forest does and leaves the same
table. It makes at most as many rounds as there are numbers from the root to where it starts, and
the tables that it writes have all roots where they were. -/
theorem exists_find (hx : x < f.size) : ∀ h : TableHistory, h.now = f.parent →
    ∃ after, h.find x = .some ((f.find x).1, after) ∧ after.now = (f.find x).2.parent ∧
      after.before.length + (f.find x).1 ≤ h.before.length + x ∧
      ∀ table ∈ after.tables, table ∈ h.tables ∨ Reshapes f.parent table := by
  fun_induction f.find x with
  | case1 f x hup =>
      intro h hnow
      refine ⟨h, find_of_eq ?_, hnow, le_rfl, fun table => .inl⟩
      rw [hnow, Forest.getElem?_parent hx, hup]
  | case2 f x hup next ih =>
      intro h hnow
      have hlt : next < x := (f.up_le _).trans_lt (Forest.up_lt hup)
      have hsize := f.size_redirect x next hlt.le
      have hreshapes : Reshapes f.parent (f.redirect x next hlt.le).parent := by
        refine Forest.reshapes_of_rootOf_eq hsize (funext ?_)
        exact Forest.rootOf_redirect hup hlt ((f.rootOf_up _).trans (f.rootOf_up x))
      have hround : h.find x = find ⟨(f.redirect x next hlt.le).parent, h.tables⟩ next := by
        rw [find_of_ne (hnow ▸ Forest.getElem?_parent hx) hup
          (hnow ▸ Forest.getElem?_parent ((Forest.up_lt hup).trans hx)), hnow]
        rfl
      obtain ⟨after, hfind, hafter, hrounds, htables⟩ :=
        ih (hsize.symm ▸ hlt.trans hx) ⟨(f.redirect x next hlt.le).parent, h.tables⟩ rfl
      refine ⟨after, hround.trans hfind, hafter, ?_, ?_⟩
      · rw [tables, List.length_cons] at hrounds
        omega
      · intro table hmem
        rcases htables table hmem with hmem | hlater
        · rcases List.mem_cons.mp hmem with rfl | hmem
          · exact .inr hreshapes
          · exact .inl hmem
        · exact .inr (hreshapes.trans hlater)

/-! ### Histories of a forest -/

/-- The table is that of a forest, and it has had the same size and has descended at all times. -/
structure Tracks (h : TableHistory) (f : Forest) : Prop where
  now_eq : h.now = f.parent
  descending : ∀ table ∈ h.tables, table.size = f.size ∧ Descends table

theorem tracks_start (f : Forest) : (start f.parent).Tracks f where
  now_eq := rfl
  descending := by
    intro table htable
    rw [List.mem_singleton.mp htable]
    exact ⟨rfl, f.descends⟩

theorem Tracks.write (h : before.Tracks f) (hx : x < f.size) (hle : y ≤ x) :
    ∃ after, before.write x y = some after ∧ after.Tracks (f.redirect x y hle) := by
  refine ⟨⟨(f.redirect x y hle).parent, before.tables⟩, ?_, rfl, ?_⟩
  · rw [TableHistory.write, h.now_eq, if_pos (show x < f.parent.size from hx)]
    rfl
  intro table htable
  rcases List.mem_cons.mp htable with rfl | htable
  · exact ⟨rfl, (f.redirect x y hle).descends⟩
  · rw [f.size_redirect]
    exact h.descending table htable

theorem Tracks.find (h : before.Tracks f) (hx : x < f.size) :
    ∃ after, before.find x = .some ((f.find x).1, after) ∧ after.Tracks (f.find x).2 := by
  obtain ⟨after, hfind, hnow, -, htables⟩ := exists_find hx before h.now_eq
  refine ⟨after, hfind, hnow, ?_⟩
  intro table htable
  rw [(f.find_spec x).2.2]
  rcases htables table htable with hearlier | hreshapes
  · exact h.descending table hearlier
  · exact ⟨hreshapes.size_eq, hreshapes.descends⟩

/-- **Joining two classes** keeps to the forest: the larger root points to the smaller one. -/
theorem Tracks.join (h : before.Tracks f) (hx : x < f.size) (hy : y < f.size) :
    ∃ after, before.join x y = .some after ∧
      after.Tracks (((f.find x).2.find y).2.link (f.find x).1 ((f.find x).2.find y).1) := by
  obtain ⟨hrootX, -, hsizeX⟩ := f.find_spec x
  obtain ⟨hrootY, -, hsizeY⟩ := (f.find x).2.find_spec y
  obtain ⟨middle, hfindX, hmiddle⟩ := h.find hx
  obtain ⟨last, hfindY, hlast⟩ := hmiddle.find (hsizeX.symm ▸ hy)
  have hlt : max (f.find x).1 ((f.find x).2.find y).1 < ((f.find x).2.find y).2.size := by
    rw [hsizeY, hsizeX, hrootX, hrootY]
    exact max_lt ((f.rootOf_le x).trans_lt hx) ((Forest.rootOf_le _ y).trans_lt hy)
  obtain ⟨after, hwrite, hafter⟩ := hlast.write hlt min_le_max
  refine ⟨after, ?_, hafter⟩
  simp only [TableHistory.join, hfindX, hfindY, Part.bind_eq_bind, Part.bind_some, hwrite]
  rfl

/-- The roots of numbers, each found in the table that the one before has left. -/
def roots (h : TableHistory) : List Nat → Part (List Nat × TableHistory)
  | [] => .some ([], h)
  | x :: rest => do
      let (root, h) ← h.find x
      let (roots, h) ← h.roots rest
      return (root :: roots, h)

theorem Tracks.roots {xs : List Nat} (h : before.Tracks f) (hxs : ∀ x ∈ xs, x < f.size) :
    ∃ after, before.roots xs = .some (f.roots xs, after) ∧
      ∀ table ∈ after.tables, table.size = f.size ∧ Descends table := by
  induction xs generalizing before f with
  | nil => exact ⟨before, rfl, h.descending⟩
  | cons x xs ih =>
      obtain ⟨hx, hxs⟩ := List.forall_mem_cons.mp hxs
      obtain ⟨-, -, hsize⟩ := f.find_spec x
      obtain ⟨middle, hfind, hmiddle⟩ := h.find hx
      obtain ⟨after, hroots, hafter⟩ := ih hmiddle (hsize.symm ▸ hxs)
      refine ⟨after, ?_, hsize ▸ hafter⟩
      rw [TableHistory.roots, hfind]
      simp only [Part.bind_eq_bind, Part.bind_some, hroots]
      rfl

/-! ### Merges -/

variable {α : Type}

/-- Applies a merge. The representatives of the clusters stand in a table of their own. -/
def apply (h : TableHistory) (representatives : Array Nat) (m : Merge α) :
    Part (Except (Fault α) (Array Nat) × TableHistory) :=
  match representatives[m.left]?, representatives[m.right]? with
  | some left, some right => do
      let h ← h.join left right
      return (.ok (representatives.push left), h)
  | _, _ => .some (.error (.shapeMismatch (.unknownCluster m.left m.right)), h)

/-- Applies merges one after the other, up to one that cannot be applied. -/
def applyAll (h : TableHistory) (representatives : Array Nat) :
    List (Merge α) → Part (Except (Fault α) Unit × TableHistory)
  | [] => .some (.ok (), h)
  | m :: rest => do
      match ← h.apply representatives m with
      | (.error fault, h) => return (.error fault, h)
      | (.ok representatives, h) => h.applyAll representatives rest

section merges

variable {s t : Joining} {n k : Nat} {m : Merge α} {fault : Fault α}

/-- A merge that names an unknown cluster writes nothing. -/
theorem apply_of_error (h : s.apply m = .error fault) :
    before.apply s.representatives m = .some (.error fault, before) := by
  unfold Joining.apply at h
  unfold TableHistory.apply
  cases hleft : s.representatives[m.left]? with
  | none =>
      rw [hleft] at h
      rw [← Except.error.inj h]
  | some left =>
      cases hright : s.representatives[m.right]? with
      | none =>
          rw [hleft, hright] at h
          rw [← Except.error.inj h]
      | some right =>
          rw [hleft, hright] at h
          cases h

/-- **A merge keeps to the forest.** -/
theorem Tracks.apply (h : before.Tracks s.forest) (hs : s.Sized n k) (happly : s.apply m = .ok t) :
    t.Sized n (k + 1) ∧ ∃ after, before.apply s.representatives m =
      .some (.ok t.representatives, after) ∧ after.Tracks t.forest := by
  obtain ⟨left, right, hleft, hright⟩ := Joining.some_of_apply happly
  obtain ⟨u, hu, hsized, hrepresentatives, -⟩ := Joining.apply_of_some hs hleft hright
  obtain rfl : t = u := Except.ok.inj (happly.symm.trans hu)
  obtain ⟨after, hjoin, hafter⟩ := h.join (hs.size_forest.symm ▸ hs.leaf hleft)
    (hs.size_forest.symm ▸ hs.leaf hright)
  refine ⟨hsized, after, ?_, ?_⟩
  · rw [TableHistory.apply, hleft, hright, hrepresentatives]
    simp only [hjoin, Part.bind_eq_bind, Part.bind_some]
    rfl
  · simp only [Joining.apply, hleft, hright] at happly
    rwa [← Except.ok.inj happly]

/-- **Merges keep to the forest**, up to the one that names an unknown cluster. -/
theorem Tracks.applyAll (h : before.Tracks s.forest) (hs : s.Sized n k)
    (merges : List (Merge α)) :
    ∃ after, before.applyAll s.representatives merges =
        .some ((s.applyAll merges).map fun _ => (), after) ∧
      (∀ table ∈ after.tables, table.size = n ∧ Descends table) ∧
      ∀ t, s.applyAll merges = .ok t → after.Tracks t.forest ∧ t.forest.size = n := by
  induction merges generalizing s before k with
  | nil =>
      refine ⟨before, rfl, hs.size_forest ▸ h.descending, ?_⟩
      intro t ht
      obtain rfl : s = t := Except.ok.inj ht
      exact ⟨h, hs.size_forest⟩
  | cons m merges ih =>
      rw [Joining.applyAll, TableHistory.applyAll]
      cases happly : s.apply m with
      | error fault =>
          refine ⟨before, ?_, hs.size_forest ▸ h.descending, ?_⟩
          · rw [apply_of_error happly]
            exact Part.bind_some ..
          · intro t ht
            cases ht
      | ok u =>
          obtain ⟨hsized, middle, hstep, hmiddle⟩ := h.apply hs happly
          obtain ⟨after, hafter, htables, hlast⟩ := ih hmiddle hsized
          refine ⟨after, ?_, htables, hlast⟩
          rw [hstep, Part.bind_eq_bind, Part.bind_some]
          exact hafter

end merges

end TableHistory

/-! ### Cuts -/

namespace Dendrogram

open Scalar

variable {α : Type} [Scalar α]

/-- Cuts a dendrogram over the given blocks at a threshold, with the tables that there have been. -/
def cutWithTables (tree : Dendrogram α) (ids : List BlockId) (threshold : α) :
    Part (Except (Fault α) Assignment × List (Array Nat)) :=
  if tree.leaves ≠ ids.length then
    .some (.error (.shapeMismatch (.leafCount tree.leaves ids.length)), [])
  else if isNaN threshold then .some (.error (.settings .cutUndefined), [])
  else do
    match ← (TableHistory.start (Array.range tree.leaves)).applyAll (Array.range tree.leaves)
      (tree.appliedMerges threshold) with
    | (.error fault, h) => return (.error fault, h.tables)
    | (.ok (), h) =>
        let (roots, h) ← h.roots (List.range tree.leaves)
        return (.ok (.ofLabels ids (numberClasses [] roots)), h.tables)

/-- **Every table in the course of a cut descends**, for any dendrogram. -/
theorem exists_cutWithTables (tree : Dendrogram α) (ids : List BlockId) (threshold : α) :
    ∃ tables, tree.cutWithTables ids threshold = .some (tree.cut ids threshold, tables) ∧
      ∀ table ∈ tables, table.size = tree.leaves ∧ Descends table := by
  unfold cutWithTables cut
  by_cases hleaves : tree.leaves ≠ ids.length
  · exact ⟨[], by rw [if_pos hleaves, if_pos hleaves], by simp⟩
  by_cases hnan : isNaN threshold = true
  · exact ⟨[], by rw [if_neg hleaves, if_neg hleaves, if_pos hnan, if_pos hnan], by simp⟩
  rw [if_neg hleaves, if_neg hleaves, if_neg hnan, if_neg hnan]
  have hstart : (TableHistory.start (Array.range tree.leaves)).Tracks
      (Joining.start tree.leaves).forest := TableHistory.tracks_start (.discrete tree.leaves)
  obtain ⟨middle, happly, htables, hlast⟩ :=
    hstart.applyAll (Joining.sized_start tree.leaves) (tree.appliedMerges threshold)
  rw [show (TableHistory.start (Array.range tree.leaves)).applyAll (Array.range tree.leaves) _ = _
    from happly]
  cases hresult : (Joining.start tree.leaves).applyAll (tree.appliedMerges threshold) with
  | error fault => exact ⟨middle.tables, Part.bind_some .., htables⟩
  | ok joined =>
      obtain ⟨htracks, hsize⟩ := hlast joined hresult
      have hrange : ∀ x ∈ List.range tree.leaves, x < joined.forest.size := fun x hx =>
        hsize.symm ▸ List.mem_range.mp hx
      obtain ⟨after, hroots, hafter⟩ := htracks.roots hrange
      refine ⟨after.tables, ?_, hsize ▸ hafter⟩
      simp only [Except.map, Part.bind_eq_bind, Part.bind_some, hroots]
      rfl

end Dendrogram

namespace TableHistory

/-- **A walk on any table that descends ends at the root.** From every number of the table it stays
in the table and makes no more rounds than there are numbers between the root and its start. It
gives the one number that points to itself and that the table leads to, and leaves the table that
the walk on a forest leaves. This table and those in between descend and lead from each number to
the root that it had before. Every table in the course of a cut descends, whatever the dendrogram
is. -/
theorem walks_end_at_root {α : Type} [Scalar α] :
    (∀ (table : Array Nat) (hdescends : Descends table), ∀ x < table.size,
      ∃ root after, (start table).find x = .some (root, after) ∧
        after.before.length + root ≤ x ∧
        HasRoot table x root ∧ (∀ other, HasRoot table x other → other = root) ∧
        (∀ other ∈ after.tables, Reshapes table other) ∧
        ((⟨table, hdescends⟩ : Forest).find x).1 = root ∧
        ((⟨table, hdescends⟩ : Forest).find x).2.parent = after.now) ∧
    ∀ (tree : Dendrogram α) (ids : List BlockId) (threshold : α),
      ∃ tables, tree.cutWithTables ids threshold = .some (tree.cut ids threshold, tables) ∧
        ∀ table ∈ tables, table.size = tree.leaves ∧ Descends table := by
  refine ⟨?_, Dendrogram.exists_cutWithTables⟩
  intro table hdescends x hx
  let f : Forest := ⟨table, hdescends⟩
  obtain ⟨after, hfind, hnow, hrounds, htables⟩ := exists_find (f := f) hx (start table) rfl
  have hroot : (f.find x).1 = f.rootOf x := (f.find_spec x).1
  refine ⟨(f.find x).1, after, hfind, ?_, ?_, ?_, ?_, rfl, hnow.symm⟩
  · simpa [start] using hrounds
  · rw [hroot]
    exact Forest.hasRoot_rootOf (f := f) hx
  · intro other hother
    rw [hroot, Forest.rootOf_of_hasRoot (f := f) hother]
  · intro other hother
    rcases htables other hother with hstart | hreshapes
    · rw [List.mem_singleton.mp hstart]
      exact Forest.reshapes_of_rootOf_eq (f := f) (g := f) rfl rfl
    · exact hreshapes

/-- The longest way that six numbers can have. -/
def longWay : Array Nat := #[0, 0, 1, 2, 3, 4]

/-- A walk along the longest way makes three rounds, the last of which changes nothing any more. -/
theorem walks_end_at_root_longWay :
    Descends longWay ∧ 5 < longWay.size ∧
    ∃ after, (start longWay).find 5 = .some (0, after) ∧
      after.tables = [#[0, 0, 1, 1, 3, 3], #[0, 0, 1, 1, 3, 3], #[0, 0, 1, 2, 3, 3], longWay] ∧
      ∀ x root, HasRoot after.now x root ↔ HasRoot longWay x root := by
  have hdescends : Descends longWay := by
    have hall : ∀ x : Fin 6, longWay[x] ≤ x := by decide
    exact fun x hx => hall ⟨x, hx⟩
  have hlt : 5 < longWay.size := by decide
  have hwalk : (start longWay).find 5 = .some (0, ⟨#[0, 0, 1, 1, 3, 3],
      [#[0, 0, 1, 1, 3, 3], #[0, 0, 1, 2, 3, 3], longWay]⟩) := by
    calc (start longWay).find 5
        _ = find ⟨#[0, 0, 1, 2, 3, 3], [longWay]⟩ 3 := find_of_ne rfl (by decide) rfl
        _ = find ⟨#[0, 0, 1, 1, 3, 3], [#[0, 0, 1, 2, 3, 3], longWay]⟩ 1 :=
          find_of_ne rfl (by decide) rfl
        _ = find ⟨#[0, 0, 1, 1, 3, 3], [#[0, 0, 1, 1, 3, 3], #[0, 0, 1, 2, 3, 3], longWay]⟩ 0 :=
          find_of_ne rfl (by decide) rfl
        _ = .some _ := find_of_eq rfl
  obtain ⟨root, after, hfind, -, -, -, htables, -⟩ :=
    (walks_end_at_root (α := Float)).1 longWay hdescends 5 hlt
  obtain ⟨rfl, rfl⟩ := Prod.mk.inj (Part.some_injective (hwalk.symm.trans hfind))
  exact ⟨hdescends, hlt, _, hfind, rfl, (htables _ List.mem_cons_self).hasRoot_iff⟩

end TableHistory

end BlockAffinity
