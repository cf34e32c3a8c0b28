import BlockAffinity.Proofs.Except
import BlockAffinity.Proofs.Storage.Node
import BlockAffinity.Storage.Disk

/-!
# BlockAffinity.Proofs.Storage.Disk

**Where paths lead.** A path that leads somewhere leads to the same place on every disk that has the
same directories and maybe more, and there it finds what that disk holds (`locate_of_directories`).
Writing a file takes no directory away, so what was written is read back (`read_of_write`).
-/

namespace BlockAffinity.Disk

/-! ### Trails -/

/-- The node at the end of a trail. -/
def Trail.last (root : Node) (trail : Trail) : Node := (trail.head?.map Prod.snd).getD root

/-- Every node of a trail is the one that the names up to it lead to. -/
inductive Trail.Along (root : Node) : Trail → Prop
  | nil : Along root []
  | cons {name : String} {node : Node} {trail : Trail} (h : Along root trail)
      (hnode : root.get? (trail.names ++ [name]) = some node) : Along root ((name, node) :: trail)

theorem Trail.names_cons (name : String) (node : Node) (trail : Trail) :
    Trail.names ((name, node) :: trail) = trail.names ++ [name] := by
  simp [Trail.names]

variable {root root' : Node} {trail trail' : Trail} {names : List String} {location : Location}

theorem Trail.Along.get?_names (h : Along root trail) :
    root.get? trail.names = some (trail.last root) := by
  cases h with
  | nil => rfl
  | cons _ hnode =>
      rw [Trail.names_cons]
      exact hnode

theorem Trail.Along.tail (h : Along root trail) : Along root trail.tail := by
  cases h with
  | nil => exact .nil
  | cons h _ => exact h

/-- What the directory at the end of a trail holds under a name. -/
theorem Trail.Along.lookup (h : Along root trail) {entries : List (String × Node)}
    (hlast : trail.last root = .directory entries) (name : String) :
    entries.lookup name = root.get? (trail.names ++ [name]) := by
  rw [Node.get?_append, h.get?_names, hlast, Option.bind_some, Node.get?_cons]
  show entries.lookup name = (entries.lookup name).bind some
  simp

/-! ### Following names -/

theorem follow_nil : follow root trail [] = .ok ⟨trail.names, true, some (trail.last root)⟩ := rfl

theorem follow_cons (name : String) (rest : List String) :
    follow root trail (name :: rest) =
      match trail.last root with
      | .file _ => .error .notDirectory
      | .directory entries =>
          if Path.isIdle name then follow root trail rest
          else if name = ".." then follow root trail.tail rest
          else if nameLimit < name.utf8ByteSize then .error .nameTooLong
          else if rest.all String.isEmpty then
            .ok ⟨trail.names ++ [name], !rest.isEmpty, entries.lookup name⟩
          else
            match entries.lookup name with
            | none => .error .notFound
            | some node => follow root ((name, node) :: trail) rest := rfl

/-- Names lead on only from a directory. -/
theorem exists_entries_of_follow {name : String} {rest : List String}
    (h : follow root trail (name :: rest) = .ok location) :
    ∃ entries, trail.last root = .directory entries := by
  rw [follow_cons] at h
  cases hlast : trail.last root with
  | file contents => simp [hlast] at h
  | directory entries => exact ⟨entries, rfl⟩

/-- A tree has the directories of another and maybe more. -/
def HasDirectoriesOf (root' root : Node) : Prop :=
  ∀ names entries, root.get? names = some (.directory entries) →
    ∃ entries', root'.get? names = some (.directory entries')

/-- Trails of the same names in two trees. -/
structure Trail.Parallel (root root' : Node) (trail trail' : Trail) : Prop where
  left : Along root trail
  right : Along root' trail'
  same : trail'.map Prod.fst = trail.map Prod.fst

namespace Trail.Parallel

theorem nil : Parallel root root' [] [] := ⟨.nil, .nil, rfl⟩

theorem names_eq (h : Parallel root root' trail trail') : trail'.names = trail.names := by
  rw [Trail.names, Trail.names, h.same]

theorem tail (h : Parallel root root' trail trail') : Parallel root root' trail.tail trail'.tail :=
  ⟨h.left.tail, h.right.tail, by rw [List.map_tail, List.map_tail, h.same]⟩

theorem cons (h : Parallel root root' trail trail') {name : String} {node node' : Node}
    (hnode : root.get? (trail.names ++ [name]) = some node)
    (hnode' : root'.get? (trail.names ++ [name]) = some node') :
    Parallel root root' ((name, node) :: trail) ((name, node') :: trail') :=
  ⟨.cons h.left hnode, .cons h.right (h.names_eq ▸ hnode'), by simpa using h.same⟩

/-- The trail in a tree with the same directories ends at a directory, too. -/
theorem last (h : Parallel root root' trail trail') (hdirectories : HasDirectoriesOf root' root)
    {entries : List (String × Node)} (hlast : trail.last root = .directory entries) :
    ∃ entries', trail'.last root' = .directory entries' := by
  obtain ⟨entries', hthere⟩ := hdirectories trail.names entries (hlast ▸ h.left.get?_names)
  exact ⟨entries', Option.some.inj (h.right.get?_names.symm.trans (h.names_eq ▸ hthere))⟩

end Trail.Parallel

/-- **Names that lead somewhere** lead to the same place in a tree with the same directories. -/
theorem follow_of_directories (hdirectories : HasDirectoriesOf root' root)
    (htrails : Trail.Parallel root root' trail trail') (h : follow root trail names = .ok location) :
    follow root' trail' names =
      .ok ⟨location.names, location.asDirectory, root'.get? location.names⟩ := by
  induction names generalizing trail trail' with
  | nil =>
      rw [follow_nil, Except.ok.injEq] at h
      subst h
      rw [follow_nil, ← htrails.right.get?_names, htrails.names_eq]
  | cons name rest ih =>
      obtain ⟨entries, hlast⟩ := exists_entries_of_follow h
      obtain ⟨entries', hlast'⟩ := htrails.last hdirectories hlast
      rw [follow_cons, hlast] at h
      rw [follow_cons, hlast']
      dsimp only at h ⊢
      rw [htrails.left.lookup hlast] at h
      rw [htrails.right.lookup hlast', htrails.names_eq]
      by_cases hidle : Path.isIdle name = true
      · rw [if_pos hidle] at h ⊢
        exact ih htrails h
      rw [if_neg hidle] at h ⊢
      by_cases hup : name = ".."
      · rw [if_pos hup] at h ⊢
        exact ih htrails.tail h
      rw [if_neg hup] at h ⊢
      split at h
      · exact absurd h (by simp)
      rename_i hlimit
      rw [if_neg hlimit]
      by_cases hend : rest.all String.isEmpty = true
      · rw [if_pos hend, Except.ok.injEq] at h
        subst h
        rw [if_pos hend]
      rw [if_neg hend] at h ⊢
      cases hnode : root.get? (trail.names ++ [name]) with
      | none => simp [hnode] at h
      | some node =>
          rw [hnode] at h
          -- more names follow, so the node is a directory and is one in the other tree too
          obtain ⟨below, rfl⟩ : ∃ below, node = .directory below := by
            cases rest with
            | nil => exact absurd rfl hend
            | cons next rest => exact exists_entries_of_follow h
          obtain ⟨below', hnode'⟩ := hdirectories _ _ hnode
          rw [hnode']
          exact ih (htrails.cons hnode hnode') h

theorem hasDirectoriesOf_self (root : Node) : HasDirectoriesOf root root :=
  fun _ entries h => ⟨entries, h⟩

/-- A path that leads somewhere leads where its names lead. -/
theorem follow_of_locate {d : Disk} {path : String} (h : d.locate path = .ok location) :
    follow d.root [] (d.namesFromRoot path) = .ok location := by
  rw [locate] at h
  split at h
  · exact absurd h (by simp)
  split at h
  · exact absurd h (by simp)
  exact h

/-- What is found at the end of names is what they lead to. -/
theorem node?_of_follow (h : follow root [] names = .ok location) :
    location.node? = root.get? location.names := by
  have hagain := follow_of_directories (hasDirectoriesOf_self root) .nil h
  rw [h, Except.ok.injEq] at hagain
  rw [hagain]

theorem node?_of_locate {d : Disk} {path : String} (h : d.locate path = .ok location) :
    location.node? = d.root.get? location.names := node?_of_follow (follow_of_locate h)

/-- **A path that leads somewhere** leads to the same place on a disk with the same directories. -/
theorem locate_of_directories {d d' : Disk} (hcurrent : d'.current = d.current)
    (hdirectories : HasDirectoriesOf d'.root d.root) {path : String}
    (h : d.locate path = .ok location) :
    d'.locate path = .ok ⟨location.names, location.asDirectory, d'.root.get? location.names⟩ := by
  rw [locate] at h ⊢
  split at h
  · exact absurd h (by simp)
  split at h
  · exact absurd h (by simp)
  rename_i hempty
  rw [if_neg hempty, namesFromRoot, hcurrent]
  exact follow_of_directories hdirectories .nil h

/-! ### Reading what was written -/

/-- A file put where there is no directory takes no directory away. -/
theorem hasDirectoriesOf_put {placed : Node}
    (h : ∀ entries, root.get? names ≠ some (.directory entries)) :
    HasDirectoriesOf (root.put placed names) root := by
  intro other entries hother
  have hnot : ¬names <+: other := by
    rintro ⟨more, rfl⟩
    by_cases hmore : more = []
    · subst hmore
      exact h entries (by simpa using hother)
    · obtain ⟨between, hbetween⟩ := Node.exists_entries_of_get?_append hmore
        (by rw [hother]; rfl)
      exact h between hbetween
  by_cases hprefix : other <+: names
  · refine Node.exists_get?_put_of_prefix hprefix ?_
    rintro rfl
    exact hnot (List.prefix_refl _)
  · exact ⟨entries, by rw [Node.get?_put_of_parted ⟨hnot, hprefix⟩, hother]⟩

/-- What it takes to write a file. -/
theorem exists_of_write {d d' : Disk} {path : String} {contents : ByteArray}
    (h : d.write path contents = .ok d') :
    ∃ names, d.locate path = .ok ⟨names, false, d.root.get? names⟩ ∧
      (∀ entries, d.root.get? names ≠ some (.directory entries)) ∧
        d' = d.put names (.file contents) := by
  obtain ⟨location, hlocate, hplaced⟩ := bind_eq_ok_iff.mp h
  have hnode := node?_of_locate hlocate
  obtain ⟨names, asDirectory, node?⟩ := location
  dsimp only at hplaced hnode
  subst hnode
  cases asDirectory with
  | true => exact absurd hplaced (by simp)
  | false =>
      rw [if_neg (by simp)] at hplaced
      cases hthere : d.root.get? names with
      | none =>
          rw [hthere] at hplaced
          exact ⟨names, hlocate, fun _ => by simp [hthere], (Except.ok.inj hplaced).symm⟩
      | some node =>
          rw [hthere] at hplaced
          cases node with
          | directory entries => exact absurd hplaced (by simp)
          | file old =>
              exact ⟨names, hlocate, fun _ => by simp [hthere], (Except.ok.inj hplaced).symm⟩

/-- A path leads to the file that was written at it. -/
theorem locate_of_write {d d' : Disk} {path : String} {contents : ByteArray}
    (h : d.write path contents = .ok d') :
    ∃ names, d'.locate path = .ok ⟨names, false, some (.file contents)⟩ := by
  obtain ⟨names, hlocate, hnot, rfl⟩ := exists_of_write h
  have hcurrent : (d.put names (.file contents)).current = d.current := rfl
  have hlocate' := locate_of_directories hcurrent (hasDirectoriesOf_put hnot) hlocate
  have hthere : (d.put names (.file contents)).root.get? names = some (.file contents) :=
    Node.get?_put _ _ _
  exact ⟨names, by rw [hlocate', hthere]⟩

/-- **What was written is read back.** -/
theorem read_of_write {d d' : Disk} {path : String} {contents : ByteArray}
    (h : d.write path contents = .ok d') : d'.read path = .ok contents := by
  obtain ⟨names, hlocate⟩ := locate_of_write h
  rw [read, hlocate]
  rfl

theorem contains_of_write {d d' : Disk} {path : String} {contents : ByteArray}
    (h : d.write path contents = .ok d') : d'.contains path = true := by
  obtain ⟨names, hlocate⟩ := locate_of_write h
  rw [contains, hlocate]
  rfl

end BlockAffinity.Disk
