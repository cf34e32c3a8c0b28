import BlockAffinity.Storage.Node
import Mathlib.Data.List.Infix

/-!
# BlockAffinity.Proofs.Storage.Node

**What is found in a tree after a change.** Putting a node where names lead changes what is found
below these names and makes directories on the way there (`get?_put_append`,
`exists_get?_put_of_prefix`); removing a node takes away what is below it (`get?_remove_append`).
Names that part from these lead to the same node as before (`get?_put_of_parted`,
`get?_remove_of_parted`).
-/

namespace BlockAffinity.Node

variable {node placed : Node} {names other : List String} {name : String}

/-- Neither of two lists of names leads on from the other. -/
def Parted (names other : List String) : Prop := ¬names <+: other ∧ ¬other <+: names

theorem Parted.symm (h : Parted names other) : Parted other names := ⟨h.2, h.1⟩

theorem parted_cons_self_iff : Parted (name :: names) (name :: other) ↔ Parted names other := by
  simp [Parted, List.cons_prefix_cons]

theorem parted_append_self_iff {more other : List String} :
    Parted (names ++ more) (names ++ other) ↔ Parted more other := by
  simp [Parted, List.prefix_append_right_inj]

/-- Names that part do so wherever they lead on to. -/
theorem Parted.append (h : Parted names other) (more : List String) :
    Parted names (other ++ more) := by
  refine ⟨fun hprefix => ?_, fun hprefix => h.2 ((List.prefix_append other more).trans hprefix)⟩
  rcases List.prefix_or_prefix_of_prefix hprefix (List.prefix_append other more) with hle | hle
  · exact h.1 hle
  · exact h.2 hle

theorem parted_singleton {other : String} (h : name ≠ other) : Parted [name] [other] := by
  simp [Parted, h, Ne.symm h]

/-! ### One step into a directory -/

theorem lookup_others_of_ne {other : String} (h : other ≠ name) :
    (node.others name).lookup other = node.child? other := by
  rw [others, child?]
  induction node.entries with
  | nil => rfl
  | cons entry entries ih =>
      obtain ⟨first, child⟩ := entry
      by_cases hfirst : first = name
      · subst hfirst
        have hother : (other == first) = false := by simpa using h
        rw [List.filter_cons_of_neg (by simp), List.lookup_cons, hother]
        exact ih
      · rw [List.filter_cons_of_pos (by simpa using hfirst), List.lookup_cons, List.lookup_cons, ih]

theorem lookup_others_self : (node.others name).lookup name = none := by
  rw [others]
  induction node.entries with
  | nil => rfl
  | cons entry entries ih =>
      obtain ⟨first, child⟩ := entry
      by_cases hfirst : first = name
      · rw [List.filter_cons_of_neg (by simpa using hfirst)]
        exact ih
      · rw [List.filter_cons_of_pos (by simpa using hfirst), List.lookup_cons,
          beq_eq_false_iff_ne.mpr (Ne.symm hfirst)]
        exact ih

theorem child?_put_self (rest : List String) :
    (node.put placed (name :: rest)).child? name =
      some (((node.child? name).getD empty).put placed rest) := by
  simp [put, child?, entries]

theorem child?_put_of_ne {other : String} (h : other ≠ name) (rest : List String) :
    (node.put placed (name :: rest)).child? other = node.child? other := by
  have hother : (other == name) = false := by simpa using h
  rw [put, child?, entries, List.lookup_cons, hother]
  exact lookup_others_of_ne h

theorem get?_cons : node.get? (name :: names) = (node.child? name).bind (·.get? names) := rfl

theorem get?_append (more : List String) :
    node.get? (names ++ more) = (node.get? names).bind (·.get? more) := by
  induction names generalizing node with
  | nil => rfl
  | cons name names ih =>
      rw [List.cons_append, get?_cons, get?_cons]
      cases node.child? name with
      | none => rfl
      | some child => exact ih

/-- A node below another is found in a directory. -/
theorem exists_entries_of_get?_append {more : List String} (hmore : more ≠ [])
    (h : (node.get? (names ++ more)).isSome) :
    ∃ entries, node.get? names = some (.directory entries) := by
  rw [get?_append] at h
  cases hnode : node.get? names with
  | none => simp [hnode] at h
  | some found =>
      cases found with
      | directory entries => exact ⟨entries, rfl⟩
      | file contents =>
          cases more with
          | nil => exact absurd rfl hmore
          | cons name more => simp [hnode, get?_cons, child?, entries] at h

/-! ### After putting -/

/-- Below the place of a node are the nodes below it. -/
theorem get?_put_append (more : List String) :
    (node.put placed names).get? (names ++ more) = placed.get? more := by
  rw [get?_append, get?_put]
  rfl

/-- On the way to the place of a node there are directories. -/
theorem exists_get?_put_of_prefix (h : other <+: names) (hne : other ≠ names) :
    ∃ entries, (node.put placed names).get? other = some (.directory entries) := by
  obtain ⟨more, rfl⟩ := h
  have hmore : more ≠ [] := by simpa using hne
  refine exists_entries_of_get?_append hmore ?_
  rw [get?_put]
  rfl

/-- **Names that part** from those where a node is put lead where they led. -/
theorem get?_put_of_parted (h : Parted names other) :
    (node.put placed names).get? other = node.get? other := by
  induction names generalizing node other with
  | nil => exact absurd List.nil_prefix h.1
  | cons name names ih =>
      cases other with
      | nil => exact absurd List.nil_prefix h.2
      | cons first other =>
          rw [get?_cons, get?_cons]
          by_cases hfirst : first = name
          · subst hfirst
            rw [child?_put_self, Option.bind_some, ih (parted_cons_self_iff.mp h)]
            cases node.child? first with
            | some child => rfl
            | none =>
                cases other with
                | nil => exact absurd List.nil_prefix (parted_cons_self_iff.mp h).2
                | cons next other => rfl
          · rw [child?_put_of_ne hfirst]

/-! ### After removing -/

theorem remove_cons_of_child {child : Node} (h : node.child? name = some child)
    (hnames : names ≠ []) :
    node.remove (name :: names) =
      .directory ((name, child.remove names) :: node.others name) := by
  cases names with
  | nil => exact absurd rfl hnames
  | cons next names => simp [remove, h]

theorem remove_cons_of_no_child (h : node.child? name = none) (hnames : names ≠ []) :
    node.remove (name :: names) = node := by
  cases names with
  | nil => exact absurd rfl hnames
  | cons next names => simp [remove, h]

theorem child?_directory_cons_self {entries : List (String × Node)} :
    (directory ((name, placed) :: entries)).child? name = some placed := by
  simp [child?, Node.entries]

/-- Below a node that was removed there is nothing. -/
theorem get?_remove_append (hnames : names ≠ []) (more : List String) :
    (node.remove names).get? (names ++ more) = none := by
  induction names generalizing node with
  | nil => exact absurd rfl hnames
  | cons name names ih =>
      rw [List.cons_append, get?_cons]
      by_cases hlast : names = []
      · subst hlast
        rw [remove, child?, entries, lookup_others_self]
        rfl
      · cases hchild : node.child? name with
        | none => rw [remove_cons_of_no_child hchild hlast, hchild, Option.bind_none]
        | some child =>
            rw [remove_cons_of_child hchild hlast, child?_directory_cons_self]
            exact ih hlast

theorem get?_remove (hnames : names ≠ []) : (node.remove names).get? names = none := by
  have hgone := @get?_remove_append node names hnames []
  rwa [List.append_nil] at hgone

/-- **Names that part** from those of a node that was removed lead where they led. -/
theorem get?_remove_of_parted (h : Parted names other) :
    (node.remove names).get? other = node.get? other := by
  induction names generalizing node other with
  | nil => exact absurd List.nil_prefix h.1
  | cons name names ih =>
      cases other with
      | nil => exact absurd List.nil_prefix h.2
      | cons first other =>
          rw [get?_cons, get?_cons]
          by_cases hlast : names = []
          · subst hlast
            have hfirst : first ≠ name := by
              rintro rfl
              exact (parted_cons_self_iff.mp h).1 List.nil_prefix
            rw [remove, child?, entries, lookup_others_of_ne hfirst]
          · cases hchild : node.child? name with
            | none => rw [remove_cons_of_no_child hchild hlast]
            | some child =>
                rw [remove_cons_of_child hchild hlast]
                by_cases hfirst : first = name
                · subst hfirst
                  rw [child?_directory_cons_self, hchild]
                  exact ih (parted_cons_self_iff.mp h)
                · have hother : (first == name) = false := by simpa using hfirst
                  rw [child?, entries, List.lookup_cons, hother]
                  exact congrArg (Option.bind · (·.get? other)) (lookup_others_of_ne hfirst)

/-- Removing what is there leaves the directory that held it. -/
theorem exists_get?_remove_of_prefix (h : other <+: names) (hne : other ≠ names)
    (hthere : (node.get? names).isSome) :
    ∃ entries, (node.remove names).get? other = some (.directory entries) := by
  obtain ⟨more, rfl⟩ := h
  have hmore : more ≠ [] := by simpa using hne
  induction other generalizing node with
  | nil =>
      cases more with
      | nil => exact absurd rfl hmore
      | cons name more =>
          rw [List.nil_append, get?_cons] at hthere
          by_cases hlast : more = []
          · subst hlast
            exact ⟨_, rfl⟩
          · cases hchild : node.child? name with
            | none => simp [hchild] at hthere
            | some child => exact ⟨_, congrArg some (remove_cons_of_child hchild hlast)⟩
  | cons name other ih =>
      rw [List.cons_append, get?_cons] at hthere
      cases hchild : node.child? name with
      | none => simp [hchild] at hthere
      | some child =>
          have hlast : other ++ more ≠ [] := by simp [hmore]
          rw [hchild, Option.bind_some] at hthere
          obtain ⟨entries, hentries⟩ := ih (by simpa using hmore) hthere
          refine ⟨entries, ?_⟩
          rw [List.cons_append, remove_cons_of_child hchild hlast, get?_cons,
            child?_directory_cons_self]
          exact hentries

end BlockAffinity.Node
