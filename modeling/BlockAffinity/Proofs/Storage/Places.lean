import BlockAffinity.Proofs.Run.Frame
import BlockAffinity.Proofs.Storage.FileMap

/-!
# BlockAffinity.Proofs.Storage.Places

**A disk changes only where it is told to.** Nothing on a disk leads elsewhere, so a path tells by
itself to which place it leads, if it leads anywhere (`names_of_locate`). Writing and removing a file
changes the contents at this place and at no other, and making directories changes none
(`frame`).
-/

namespace BlockAffinity.Disk

/-! ### Places of paths -/

/-- The names that a path goes through and has not left again, the last one first. -/
def wayOf (way : List String) : List String → List String
  | [] => way
  | name :: rest =>
      if Path.isIdle name then wayOf way rest
      else if name = ".." then wayOf way.tail rest
      else wayOf (name :: way) rest

/-- The place of a path that is taken from a directory. -/
def placeOf (current : List String) (path : String) : List String :=
  (wayOf [] (if Path.isAbsolute path then Path.names path else current ++ Path.names path)).reverse

variable {root : Node} {trail : Trail} {names : List String} {location : Location} {d d' : Disk}
  {path : String}

theorem wayOf_of_isEmpty (way : List String) (h : names.all String.isEmpty = true) :
    wayOf way names = way := by
  induction names with
  | nil => rfl
  | cons name rest ih =>
      rw [List.all_cons, Bool.and_eq_true] at h
      have hidle : Path.isIdle name = true := by
        rw [Path.isIdle, String.isEmpty_iff.mp h.1]
        rfl
      rw [wayOf, if_pos hidle, ih h.2]

/-- The ways to follow names, one step at a time. -/
theorem follow_cases {name : String} {rest : List String}
    (h : follow root trail (name :: rest) = .ok location) :
    (Path.isIdle name = true ∧ follow root trail rest = .ok location) ∨
    (Path.isIdle name = false ∧ name = ".." ∧ follow root trail.tail rest = .ok location) ∨
    (Path.isIdle name = false ∧ name ≠ ".." ∧ rest.all String.isEmpty = true ∧
      ∃ entries, trail.last root = .directory entries ∧
        location = ⟨trail.names ++ [name], !rest.isEmpty, entries.lookup name⟩) ∨
    (Path.isIdle name = false ∧ name ≠ ".." ∧ ∃ entries node,
      trail.last root = .directory entries ∧ entries.lookup name = some node ∧
        follow root ((name, node) :: trail) rest = .ok location) := by
  obtain ⟨entries, hlast⟩ := exists_entries_of_follow h
  rw [follow_cons, hlast] at h
  dsimp only at h
  by_cases hidle : Path.isIdle name = true
  · rw [if_pos hidle] at h
    exact .inl ⟨hidle, h⟩
  rw [if_neg hidle] at h
  have hnamed : Path.isIdle name = false := Bool.eq_false_iff.mpr hidle
  by_cases hup : name = ".."
  · rw [if_pos hup] at h
    exact .inr (.inl ⟨hnamed, hup, h⟩)
  rw [if_neg hup] at h
  split at h
  · cases h
  by_cases hend : rest.all String.isEmpty = true
  · rw [if_pos hend, Except.ok.injEq] at h
    exact .inr (.inr (.inl ⟨hnamed, hup, hend, entries, hlast, h.symm⟩))
  rw [if_neg hend] at h
  cases hnode : entries.lookup name with
  | none => simp [hnode] at h
  | some node =>
      rw [hnode] at h
      exact .inr (.inr (.inr ⟨hnamed, hup, entries, node, hlast, hnode, h⟩))

/-- **Names tell where they lead**, if they lead anywhere. -/
theorem names_of_follow (h : follow root trail names = .ok location) :
    location.names = (wayOf (trail.map Prod.fst) names).reverse := by
  induction names generalizing trail with
  | nil =>
      rw [follow_nil, Except.ok.injEq] at h
      rw [← h]
      rfl
  | cons name rest ih =>
      rcases follow_cases h with ⟨hidle, h⟩ | ⟨hidle, hup, h⟩ | ⟨hidle, hup, hend, entries, -, rfl⟩ |
        ⟨hidle, hup, entries, node, -, -, h⟩
      · rw [wayOf, if_pos hidle, ih h]
      · rw [wayOf, hidle, if_neg Bool.false_ne_true, if_pos hup, ih h, List.map_tail]
      · rw [wayOf, hidle, if_neg Bool.false_ne_true, if_neg hup, wayOf_of_isEmpty _ hend,
          List.reverse_cons]
        rfl
      · rw [wayOf, hidle, if_neg Bool.false_ne_true, if_neg hup, ih h, List.map_cons]

theorem names_of_locate (h : d.locate path = .ok location) :
    location.names = placeOf d.current path := names_of_follow (follow_of_locate h)

/-- Names that stand for themselves are all gone through. -/
theorem wayOf_of_plain (way : List String) (hplain : ∀ name ∈ names, IsPlain name) :
    wayOf way names = names.reverse ++ way := by
  induction names generalizing way with
  | nil => rfl
  | cons name rest ih =>
      obtain ⟨hname, hrest⟩ := List.forall_mem_cons.mp hplain
      rw [wayOf, hname.notIdle, if_neg Bool.false_ne_true, if_neg hname.notUp, ih _ hrest,
        List.reverse_cons, List.append_assoc, List.singleton_append]

theorem placeOf_of_leadsTo {current above : List String} {name : String}
    (h : LeadsTo current path above name) : placeOf current path = above ++ [name] := by
  rw [placeOf, h.names, wayOf_of_plain _ h.plain, List.append_nil, List.reverse_reverse]

/-- On the way to a directory there are directories. -/
theorem exists_entries_of_prefix {above : List String} {entries : List (String × Node)}
    (h : above <+: names) (hthere : root.get? names = some (.directory entries)) :
    ∃ entries', root.get? above = some (.directory entries') := by
  obtain ⟨more, rfl⟩ := h
  by_cases hmore : more = []
  · rw [hmore, List.append_nil] at hthere
    exact ⟨entries, hthere⟩
  · exact Node.exists_entries_of_get?_append hmore (Option.isSome_of_eq_some hthere)

/-- On the way to where names lead there are directories. -/
theorem exists_above_of_follow (htrail : Trail.Along root trail)
    (h : follow root trail names = .ok location) {above more : List String}
    (hnames : location.names = above ++ more) (hmore : more ≠ []) :
    ∃ entries, root.get? above = some (.directory entries) := by
  induction names generalizing trail with
  | nil =>
      rw [follow_nil, Except.ok.injEq] at h
      subst h
      refine Node.exists_entries_of_get?_append hmore ?_
      rw [← hnames]
      exact Option.isSome_of_eq_some htrail.get?_names
  | cons name rest ih =>
      rcases follow_cases h with ⟨-, h⟩ | ⟨-, -, h⟩ | ⟨-, -, -, entries, hlast, rfl⟩ |
        ⟨-, -, entries, node, hlast, hnode, h⟩
      · exact ih htrail h
      · exact ih htrail.tail h
      · have hthere : root.get? trail.names = some (.directory entries) := hlast ▸ htrail.get?_names
        have hpre : above <+: trail.names ++ [name] := ⟨more, hnames.symm⟩
        rcases List.prefix_concat_iff.mp hpre with rfl | hpre
        · exact absurd (List.self_eq_append_right.mp hnames) hmore
        · exact exists_entries_of_prefix hpre hthere
      · refine ih (.cons htrail ?_) h
        rw [← htrail.lookup hlast, hnode]

theorem exists_above_of_locate (h : d.locate path = .ok location) {above more : List String}
    (hnames : location.names = above ++ more) (hmore : more ≠ []) :
    ∃ entries, d.root.get? above = some (.directory entries) :=
  exists_above_of_follow .nil (follow_of_locate h) hnames hmore

/-! ### Files at places -/

/-- The contents of the file at a place. -/
def contents? (d : Disk) (place : List String) : Option ByteArray :=
  match d.root.get? place with
  | some (.file contents) => some contents
  | _ => none

theorem contents?_eq_none_of_directory {place : List String} {entries : List (String × Node)}
    (h : d.root.get? place = some (.directory entries)) : d.contents? place = none := by
  rw [contents?, h]

theorem contents?_eq_none_of_none {place : List String} (h : d.root.get? place = none) :
    d.contents? place = none := by
  rw [contents?, h]

/-- Below a place without a directory there are no files. -/
theorem contents?_append_eq_none (hnone : ∀ entries, d.root.get? names ≠ some (.directory entries))
    {more : List String} (hmore : more ≠ []) : d.contents? (names ++ more) = none := by
  refine contents?_eq_none_of_none ?_
  by_contra hsome
  obtain ⟨entries, h⟩ :=
    Node.exists_entries_of_get?_append hmore (Option.isSome_iff_ne_none.mpr hsome)
  exact hnone entries h

/-- **Putting a node with nothing below it** changes the contents at its place only, if it stands in a
directory and not in place of one. -/
theorem contents?_put {placed : Node} (hplaced : ∀ more ≠ [], placed.get? more = none)
    (habove : ∀ above more, names = above ++ more → more ≠ [] →
      ∃ entries, d.root.get? above = some (.directory entries))
    (hnone : ∀ entries, d.root.get? names ≠ some (.directory entries)) {place : List String}
    (hplace : place ≠ names) : (d.put names placed).contents? place = d.contents? place := by
  by_cases hbelow : names <+: place
  · obtain ⟨more, rfl⟩ := hbelow
    have hmore : more ≠ [] := by
      rintro rfl
      exact hplace (List.append_nil names)
    rw [contents?_append_eq_none hnone hmore]
    exact contents?_eq_none_of_none ((Node.get?_put_append more).trans (hplaced more hmore))
  by_cases hway : place <+: names
  · obtain ⟨more, hmore⟩ := hway
    have hne : more ≠ [] := by
      rintro rfl
      exact hplace ((List.append_nil place).symm.trans hmore)
    obtain ⟨entries, hbefore⟩ := habove place more hmore.symm hne
    obtain ⟨entries', hafter⟩ := Node.exists_get?_put_of_prefix ⟨more, hmore⟩ hplace
    rw [contents?_eq_none_of_directory hbefore]
    exact contents?_eq_none_of_directory hafter
  · rw [contents?, contents?]
    dsimp only [put]
    rw [Node.get?_put_of_parted ⟨hbelow, hway⟩]

/-- **Removing a file** changes the contents at its place only. -/
theorem contents?_remove {contents : ByteArray} (hnames : names ≠ [])
    (hthere : d.root.get? names = some (.file contents)) {place : List String}
    (hplace : place ≠ names) : (d.remove names).contents? place = d.contents? place := by
  have hnone : ∀ entries, d.root.get? names ≠ some (.directory entries) := by
    intro entries h
    rw [hthere] at h
    cases h
  by_cases hbelow : names <+: place
  · obtain ⟨more, rfl⟩ := hbelow
    have hmore : more ≠ [] := by
      rintro rfl
      exact hplace (List.append_nil names)
    rw [contents?_append_eq_none hnone hmore]
    exact contents?_eq_none_of_none (Node.get?_remove_append hnames more)
  by_cases hway : place <+: names
  · have hsome : (d.root.get? names).isSome := Option.isSome_of_eq_some hthere
    obtain ⟨entries', hafter⟩ := Node.exists_get?_remove_of_prefix hway hplace hsome
    obtain ⟨more, rfl⟩ := hway
    have hne : more ≠ [] := by
      rintro rfl
      exact hplace (List.append_nil place).symm
    obtain ⟨entries, hbefore⟩ := Node.exists_entries_of_get?_append hne hsome
    rw [contents?_eq_none_of_directory hbefore]
    exact contents?_eq_none_of_directory hafter
  · rw [contents?, contents?]
    dsimp only [remove]
    rw [Node.get?_remove_of_parted ⟨hbelow, hway⟩]

/-! ### Calls -/

/-- A path that may mean a file does not lead to the root. -/
theorem ne_nil_of_follow (h : follow root trail names = .ok location)
    (hfile : location.asDirectory = false) : location.names ≠ [] := by
  induction names generalizing trail with
  | nil =>
      rw [follow_nil, Except.ok.injEq] at h
      rw [← h] at hfile
      cases hfile
  | cons name rest ih =>
      rcases follow_cases h with ⟨-, h⟩ | ⟨-, -, h⟩ | ⟨-, -, -, entries, -, rfl⟩ |
        ⟨-, -, entries, node, -, -, h⟩
      · exact ih h
      · exact ih h
      · simp
      · exact ih h

theorem ne_nil_of_locate (h : d.locate path = .ok location) (hfile : location.asDirectory = false) :
    location.names ≠ [] := ne_nil_of_follow (follow_of_locate h) hfile

/-- Two disks with the same working directory and the same files. -/
def SameFiles (d d' : Disk) : Prop :=
  d'.current = d.current ∧ ∀ place, d'.contents? place = d.contents? place

theorem get?_file {contents : ByteArray} {more : List String} (hmore : more ≠ []) :
    (Node.file contents).get? more = none := by
  cases more with
  | nil => exact absurd rfl hmore
  | cons name more => rfl

theorem get?_empty {more : List String} (hmore : more ≠ []) : Node.empty.get? more = none := by
  cases more with
  | nil => exact absurd rfl hmore
  | cons name more => rfl

/-- A new directory holds no files. -/
theorem sameFiles_makeDirectory (h : d.makeDirectory names = .ok d') : d.SameFiles d' := by
  obtain ⟨location, hfollow, hplaced⟩ := bind_eq_ok_iff.mp h
  have hnode := node?_of_follow hfollow
  cases hfree : location.node? with
  | some node =>
      rw [hfree] at hplaced
      cases hplaced
  | none =>
      rw [hfree] at hplaced
      obtain rfl := Except.ok.inj hplaced
      have hnone : d.root.get? location.names = none := hnode.symm.trans hfree
      refine ⟨rfl, fun place => ?_⟩
      by_cases hplace : place = location.names
      · subst hplace
        rw [contents?_eq_none_of_none hnone]
        exact contents?_eq_none_of_directory (Node.get?_put ..)
      · refine contents?_put (fun more => get?_empty) (fun above more hsplit hmore => ?_)
          (fun entries => ?_) hplace
        · exact exists_above_of_follow .nil hfollow hsplit hmore
        · rw [hnone]
          exact Option.some_ne_none _ ∘ Eq.symm

theorem sameFiles_settle (d : Disk) (names : List String) :
    d.SameFiles (d.settle names (d.makeDirectory names)).2 := by
  cases h : d.makeDirectory names with
  | ok made => exact sameFiles_makeDirectory h
  | error e => exact ⟨rfl, fun _ => rfl⟩

/-- Making a directory with those above it, one after the other. -/
theorem sameFiles_makeAlong (d : Disk) (along : List (List String)) :
    d.SameFiles (d.makeAlong along).2 := by
  induction along with
  | nil => exact ⟨rfl, fun _ => rfl⟩
  | cons names above ih =>
      rw [makeAlong]
      split
      · split
        · rename_i made hmade
          rw [hmade] at ih
          obtain ⟨hcurrent, hfiles⟩ := made.sameFiles_settle names
          exact ⟨hcurrent.trans ih.1, fun place => (hfiles place).trans (ih.2 place)⟩
        · exact ih
      · exact d.sameFiles_settle names

theorem sameFiles_makeDirectories (d : Disk) (path : String) :
    d.SameFiles (d.makeDirectories path).2 := by
  unfold makeDirectories
  split
  · exact ⟨rfl, fun _ => rfl⟩
  · exact d.sameFiles_makeAlong _

/-- A change that fails leaves the disk as it is. -/
theorem change_cases (f : Disk → Except FileError Disk) (d : Disk) :
    ((change f).run d).2 = d ∨ f d = .ok ((change f).run d).2 := by
  show (change f d).2 = d ∨ f d = .ok (change f d).2
  cases hf : f d with
  | error e =>
      rw [change, hf]
      exact .inl rfl
  | ok changed =>
      rw [change, hf]
      exact .inr rfl

/-- Writing a file changes the contents at its place only. -/
theorem contents?_write {contents : ByteArray} (h : d.write path contents = .ok d') :
    d'.current = d.current ∧
      ∀ place ≠ placeOf d.current path, d'.contents? place = d.contents? place := by
  obtain ⟨names, hlocate, hnone, rfl⟩ := exists_of_write h
  refine ⟨rfl, fun place hplace => ?_⟩
  rw [← names_of_locate hlocate] at hplace
  exact contents?_put (fun more => get?_file)
    (fun above more hsplit hmore => exists_above_of_locate hlocate hsplit hmore) hnone hplace

/-- Removing a file changes the contents at its place only. -/
theorem contents?_removeFile (h : d.removeFile path = .ok d') :
    d'.current = d.current ∧
      ∀ place ≠ placeOf d.current path, d'.contents? place = d.contents? place := by
  obtain ⟨location, hlocate, hremoved⟩ := bind_eq_ok_iff.mp h
  have hnode := node?_of_locate hlocate
  cases hthere : location.node? with
  | none =>
      rw [hthere] at hremoved
      cases hremoved
  | some node =>
      rw [hthere] at hremoved
      cases node with
      | directory entries => cases hremoved
      | file contents =>
          dsimp only at hremoved
          split at hremoved
          · cases hremoved
          · rename_i hfile
            obtain rfl := Except.ok.inj hremoved
            refine ⟨rfl, fun place hplace => ?_⟩
            rw [← names_of_locate hlocate] at hplace
            have hnames := ne_nil_of_locate hlocate (Bool.eq_false_iff.mpr hfile)
            exact contents?_remove hnames (hnode.symm.trans hthere) hplace

/-- **Calls on a disk** affect no file but the one that they name. -/
def frame (current : List String) : FileFrame Disk where
  Holds d := d.current = current
  Place := List String
  place := placeOf current
  file? := contents?
  current := pathText current
  read _ _ := rfl
  contains _ _ := rfl
  workingDirectory _ := rfl
  eq_current := by
    rintro d rfl found h
    exact (Except.ok.inj h).symm
  write := by
    rintro d rfl path contents
    rcases change_cases (fun d => d.write path contents) d with h | h
    · exact ⟨congrArg Disk.current h, fun p _ => congrArg (contents? · p) h⟩
    · exact contents?_write h
  removeFile := by
    rintro d rfl path
    rcases change_cases (fun d => d.removeFile path) d with h | h
    · exact ⟨congrArg Disk.current h, fun p _ => congrArg (contents? · p) h⟩
    · exact contents?_removeFile h
  makeDirectories := by
    rintro d rfl path
    exact d.sameFiles_makeDirectories path

end BlockAffinity.Disk
