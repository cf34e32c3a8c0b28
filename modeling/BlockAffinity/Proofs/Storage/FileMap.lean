import BlockAffinity.Proofs.Run.ScoreCache
import BlockAffinity.Proofs.Storage.Disk

/-!
# BlockAffinity.Proofs.Storage.FileMap

**A disk behaves as a map** as far as an input file and a cache apart from it are concerned, if their
paths are made of names that stand for themselves (`Layout.fileMap`).

A path of such names leads to the last of them as long as the names above it lead to a directory
(`follow_plain`, `locate_cases`). From there each operation is a change of the tree in one place, and
what is found in other places is said by the laws of trees.
-/

namespace BlockAffinity.Path

/-- A text without slashes is one name. -/
theorem splitNames_of_notMem {name : List Char} (h : '/' ∉ name) : splitNames name = [name] := by
  induction name with
  | nil => rfl
  | cons c name ih =>
      rw [List.mem_cons, not_or] at h
      rw [splitNames, if_neg (Ne.symm h.1), ih h.2]

/-- A text without slashes before a slash is the first name. -/
theorem splitNames_append_of_notMem {name : List Char} (h : '/' ∉ name) (rest : List Char) :
    splitNames (name ++ '/' :: rest) = name :: splitNames rest := by
  induction name with
  | nil => rw [List.nil_append, splitNames, if_pos rfl]
  | cons c name ih =>
      rw [List.mem_cons, not_or] at h
      rw [List.cons_append, splitNames, if_neg (Ne.symm h.1), ih h.2]

end BlockAffinity.Path

namespace BlockAffinity.Disk

/-! ### Names that stand for themselves -/

/-- A name that stands for itself in a path. -/
structure IsPlain (name : String) : Prop where
  notIdle : Path.isIdle name = false
  notUp : name ≠ ".."
  short : name.utf8ByteSize ≤ nameLimit

theorem IsPlain.isEmpty_eq_false {name : String} (h : IsPlain name) : name.isEmpty = false := by
  have hidle := h.notIdle
  rw [Path.isIdle, Bool.or_eq_false_iff] at hidle
  simpa using hidle.1

variable {root : Node} {trail : Trail} {above : List String} {name : String}

/-- In a directory such a name leads down, or is the last one. -/
theorem follow_cons_of_isPlain (htrail : Trail.Along root trail) (hplain : IsPlain name)
    {entries : List (String × Node)} (hlast : trail.last root = .directory entries)
    (rest : List String) :
    follow root trail (name :: rest) =
      if rest.all String.isEmpty then
        .ok ⟨trail.names ++ [name], !rest.isEmpty, root.get? (trail.names ++ [name])⟩
      else
        match root.get? (trail.names ++ [name]) with
        | none => .error .notFound
        | some node => follow root ((name, node) :: trail) rest := by
  have hstep : follow root trail (name :: rest) = _ := follow_cons name rest
  rw [hlast] at hstep
  dsimp only at hstep
  rw [if_neg (by simp [hplain.notIdle]), if_neg hplain.notUp, if_neg (Nat.not_lt.mpr hplain.short),
    htrail.lookup hlast] at hstep
  exact hstep

/-- **Plain names** lead to the last of them, unless those above it lead to no directory. -/
theorem follow_plain (htrail : Trail.Along root trail)
    (hplain : ∀ other ∈ above ++ [name], IsPlain other) :
    ((∀ entries, root.get? (trail.names ++ above) ≠ some (.directory entries)) ∧
        ∃ error, follow root trail (above ++ [name]) = .error error) ∨
      follow root trail (above ++ [name]) =
        .ok ⟨trail.names ++ (above ++ [name]), false,
          root.get? (trail.names ++ (above ++ [name]))⟩ := by
  induction above generalizing trail with
  | nil =>
      rw [List.nil_append, List.append_nil]
      cases hlast : trail.last root with
      | file contents =>
          rw [follow_cons, hlast]
          refine .inl ⟨fun entries => ?_, _, rfl⟩
          rw [htrail.get?_names, hlast]
          simp
      | directory entries =>
          refine .inr ?_
          rw [follow_cons_of_isPlain htrail (hplain name (by simp)) hlast, List.all_nil, if_pos rfl]
          rfl
  | cons first above ih =>
      rw [List.cons_append]
      cases hlast : trail.last root with
      | file contents =>
          rw [follow_cons, hlast]
          refine .inl ⟨fun entries => ?_, _, rfl⟩
          rw [Node.get?_append, htrail.get?_names, hlast]
          simp [Node.get?_cons, Node.child?, Node.entries]
      | directory entries =>
          have hmore : (above ++ [name]).all String.isEmpty = false := by
            simp [(hplain name (by simp)).isEmpty_eq_false]
          rw [follow_cons_of_isPlain htrail (hplain first (by simp)) hlast, if_neg (by simp [hmore])]
          cases hnode : root.get? (trail.names ++ [first]) with
          | none =>
              refine .inl ⟨fun found => ?_, _, rfl⟩
              rw [List.append_cons, Node.get?_append, hnode]
              simp
          | some node =>
              have hnext := ih (.cons htrail hnode) fun other hmem =>
                hplain other (List.mem_cons_of_mem _ hmem)
              rw [Trail.names_cons, List.append_assoc, List.append_assoc] at hnext
              exact hnext

/-! ### Paths of such names -/

/-- A path that leads to a name in a directory, all names standing for themselves. -/
structure LeadsTo (current : List String) (path : String) (above : List String) (name : String) :
    Prop where
  possible : pathError? path = none
  nonempty : path.isEmpty = false
  names : (if Path.isAbsolute path then Path.names path else current ++ Path.names path) =
    above ++ [name]
  plain : ∀ other ∈ above ++ [name], IsPlain other

variable {d : Disk} {path : String}

theorem locate_cases (h : LeadsTo d.current path above name) :
    ((∀ entries, d.root.get? above ≠ some (.directory entries)) ∧
        ∃ error, d.locate path = .error error) ∨
      d.locate path = .ok ⟨above ++ [name], false, d.root.get? (above ++ [name])⟩ := by
  have hlocate : d.locate path = follow d.root [] (above ++ [name]) := by
    rw [locate, h.possible]
    dsimp only
    rw [if_neg (by simp [h.nonempty]), namesFromRoot, h.names]
  rw [hlocate]
  exact follow_plain .nil h.plain

/-- In a directory a path leads to its name. -/
theorem locate_of_leadsTo (h : LeadsTo d.current path above name)
    {entries : List (String × Node)} (habove : d.root.get? above = some (.directory entries)) :
    d.locate path = .ok ⟨above ++ [name], false, d.root.get? (above ++ [name])⟩ := by
  rcases locate_cases h with ⟨hnot, -⟩ | hlocate
  · exact absurd habove (hnot entries)
  · exact hlocate

/-- What is there is held by a directory. -/
theorem locate_of_isSome (h : LeadsTo d.current path above name)
    (hthere : (d.root.get? (above ++ [name])).isSome) :
    d.locate path = .ok ⟨above ++ [name], false, d.root.get? (above ++ [name])⟩ := by
  obtain ⟨entries, hentries⟩ := Node.exists_entries_of_get?_append (List.cons_ne_nil _ _) hthere
  exact locate_of_leadsTo h hentries

theorem contains_of_leadsTo (h : LeadsTo d.current path above name) :
    d.contains path = (d.root.get? (above ++ [name])).isSome := by
  cases hthere : d.root.get? (above ++ [name]) with
  | none =>
      rcases locate_cases h with ⟨-, error, herror⟩ | hlocate
      · rw [contains, herror]
        rfl
      · rw [contains, hlocate, hthere]
        rfl
  | some node =>
      rw [contains, locate_of_isSome h (by rw [hthere]; rfl), hthere]
      cases node with
      | file contents => rfl
      | directory entries => rfl

theorem read_of_leadsTo (h : LeadsTo d.current path above name) {contents : ByteArray}
    (hthere : d.root.get? (above ++ [name]) = some (.file contents)) :
    d.read path = .ok contents := by
  rw [read, locate_of_isSome h (by rw [hthere]; rfl), hthere]
  rfl

theorem write_of_leadsTo (h : LeadsTo d.current path above name)
    {entries : List (String × Node)} (habove : d.root.get? above = some (.directory entries))
    (hnot : ∀ entries, d.root.get? (above ++ [name]) ≠ some (.directory entries))
    (contents : ByteArray) :
    d.write path contents = .ok (d.put (above ++ [name]) (.file contents)) := by
  rw [write, locate_of_leadsTo h habove]
  cases hthere : d.root.get? (above ++ [name]) with
  | none => rfl
  | some node =>
      cases node with
      | file old => rfl
      | directory entries => exact absurd hthere (hnot entries)

theorem removeFile_of_leadsTo (h : LeadsTo d.current path above name) {contents : ByteArray}
    (hthere : d.root.get? (above ++ [name]) = some (.file contents)) :
    d.removeFile path = .ok (d.remove (above ++ [name])) := by
  rw [removeFile, locate_of_isSome h (by rw [hthere]; rfl), hthere]
  rfl

theorem removeTree_of_leadsTo (h : LeadsTo d.current path above name)
    {entries : List (String × Node)}
    (hthere : d.root.get? (above ++ [name]) = some (.directory entries)) :
    d.removeTree path = .ok (d.remove (above ++ [name])) := by
  rw [removeTree, locate_of_isSome h (by rw [hthere]; rfl), hthere]
  rfl

/-- A missing directory is made in the one above it. -/
theorem makeDirectories_of_leadsTo (h : LeadsTo d.current path above name)
    {entries : List (String × Node)} (habove : d.root.get? above = some (.directory entries))
    (hmissing : d.root.get? (above ++ [name]) = none) :
    d.makeDirectories path = (.ok (), d.put (above ++ [name]) .empty) := by
  have hname : Path.isIdle name = false := (h.plain name (by simp)).notIdle
  have hancestors : Path.ancestors (above ++ [name]) =
      (above ++ [name]) :: Path.beginnings above.reverse := by
    simp [Path.ancestors, hname]
  have hfollow : follow d.root [] (above ++ [name]) =
      .ok ⟨above ++ [name], false, d.root.get? (above ++ [name])⟩ := by
    rcases follow_plain .nil h.plain with ⟨hnot, -⟩ | hfollow
    · exact absurd habove (hnot entries)
    · exact hfollow
  have hmake : d.makeDirectory (above ++ [name]) = .ok (d.put (above ++ [name]) .empty) := by
    rw [makeDirectory, hfollow, hmissing]
    rfl
  rw [makeDirectories, h.possible]
  dsimp only
  rw [namesFromRoot, h.names, hancestors, makeAlong, hmake]
  rfl

/-! ### An input file and a cache -/

/-- Where an input file and a cache lie apart from each other. -/
structure Layout (current : List String) (input : String) (cache : ScoreCache) where
  inputAbove : List String
  inputName : String
  cacheAbove : List String
  cacheName : String
  input_leads : LeadsTo current input inputAbove inputName
  directory_leads : LeadsTo current cache.directory cacheAbove cacheName
  entry_leads {key : String} (hkey : ScoreCache.IsKey key) :
    LeadsTo current (cache.path key) (cacheAbove ++ [cacheName]) (key ++ ".json")
  parted : Node.Parted (inputAbove ++ [inputName]) (cacheAbove ++ [cacheName])

variable {current : List String} {input : String} {cache : ScoreCache}

namespace Layout

variable (l : Layout current input cache)

/-- The names of the input file. -/
def inputNames : List String := l.inputAbove ++ [l.inputName]

/-- The names of the directory of the cache. -/
def cacheNames : List String := l.cacheAbove ++ [l.cacheName]

/-- The names of the file for a key. -/
def entryNames (key : String) : List String := l.cacheNames ++ [key ++ ".json"]

/-- What a disk of this layout holds. -/
structure Holds (d : Disk) (h : Holdings) : Prop where
  current_eq : d.current = current
  input_eq : d.root.get? l.inputNames = some (.file h.input)
  above : ∃ entries, d.root.get? l.cacheAbove = some (.directory entries)
  missing (hnone : h.entries? = none) : d.root.get? l.cacheNames = none
  directory (hsome : h.entries?.isSome) :
    ∃ entries, d.root.get? l.cacheNames = some (.directory entries)
  entry {key : String} (hkey : ScoreCache.IsKey key) :
    d.root.get? (l.entryNames key) = (h.file? key).map .file

variable {l} {d : Disk} {h : Holdings} {bytes : ByteArray} {entries : String → Option ByteArray}
  {key other : String}

theorem parted_entry (l : Layout current input cache) (key : String) :
    Node.Parted l.inputNames (l.entryNames key) :=
  l.parted.append _

theorem parted_entries (l : Layout current input cache) (hne : key ≠ other) :
    Node.Parted (l.entryNames key) (l.entryNames other) := by
  rw [entryNames, entryNames, Node.parted_append_self_iff]
  refine Node.parted_singleton fun hsame => hne ?_
  have htexts := congrArg String.toList hsame
  rw [String.toList_append, String.toList_append] at htexts
  exact String.toList_inj.mp (List.append_cancel_right htexts)

/-- The directory of the cache and the one that holds it are on the way to every entry. -/
theorem on_the_way (l : Layout current input cache) (key : String) :
    (l.cacheAbove <+: l.entryNames key ∧ l.cacheAbove ≠ l.entryNames key) ∧
      l.cacheNames <+: l.entryNames key ∧ l.cacheNames ≠ l.entryNames key := by
  refine ⟨⟨⟨[l.cacheName, key ++ ".json"], by simp [entryNames, cacheNames]⟩, ?_⟩,
    List.prefix_append _ _, by simp [entryNames]⟩
  simp [entryNames, cacheNames]

theorem Holds.input_leads (hd : l.Holds d h) :
    LeadsTo d.current input l.inputAbove l.inputName := by
  rw [hd.current_eq]
  exact l.input_leads

theorem Holds.directory_leads (hd : l.Holds d h) :
    LeadsTo d.current cache.directory l.cacheAbove l.cacheName := by
  rw [hd.current_eq]
  exact l.directory_leads

theorem Holds.entry_leads (hd : l.Holds d h) (hkey : ScoreCache.IsKey key) :
    LeadsTo d.current (cache.path key) l.cacheNames (key ++ ".json") := by
  rw [hd.current_eq]
  exact l.entry_leads hkey

/-- Without the directory of the cache there are no entries. -/
theorem Holds.of_missing (hcurrent : d.current = current)
    (hinput : d.root.get? l.inputNames = some (.file bytes))
    (habove : ∃ entries, d.root.get? l.cacheAbove = some (.directory entries))
    (hmissing : d.root.get? l.cacheNames = none) : l.Holds d ⟨bytes, none⟩ where
  current_eq := hcurrent
  input_eq := hinput
  above := habove
  missing _ := hmissing
  directory := nofun
  entry _ := by
    rw [entryNames, Node.get?_append, hmissing]
    rfl

/-! ### What operations on the input file do -/

theorem Holds.read_input (hd : l.Holds d h) : d.read input = .ok h.input :=
  read_of_leadsTo hd.input_leads hd.input_eq

/-- Writing the input file leaves the cache alone. -/
theorem Holds.write_input (hd : l.Holds d h) (bytes : ByteArray) :
    ∃ t, d.write input bytes = .ok t ∧ l.Holds t { h with input := bytes } := by
  have hthere : (d.root.get? (l.inputAbove ++ [l.inputName])).isSome := by
    rw [show d.root.get? (l.inputAbove ++ [l.inputName]) = _ from hd.input_eq]
    rfl
  obtain ⟨found, habove⟩ := Node.exists_entries_of_get?_append (List.cons_ne_nil _ _) hthere
  have hnot : ∀ found, d.root.get? l.inputNames ≠ some (.directory found) := by
    rw [hd.input_eq]
    simp
  have hcache : (d.put l.inputNames (.file bytes)).root.get? l.cacheNames =
      d.root.get? l.cacheNames := Node.get?_put_of_parted l.parted
  refine ⟨_, write_of_leadsTo hd.input_leads habove hnot bytes, hd.current_eq,
    Node.get?_put _ _ _, ?_, fun hnone => ?_, fun hsome => ?_, fun hkey => ?_⟩
  · obtain ⟨found, habove⟩ := hd.above
    exact hasDirectoriesOf_put hnot _ _ habove
  · exact hcache.trans (hd.missing hnone)
  · obtain ⟨found, hfound⟩ := hd.directory hsome
    exact ⟨found, hcache.trans hfound⟩
  · exact (Node.get?_put_of_parted (l.parted_entry _)).trans (hd.entry hkey)

/-! ### What operations on the directory of the cache do -/

theorem Holds.contains_directory (hd : l.Holds d h) :
    d.contains cache.directory = h.entries?.isSome := by
  rw [contains_of_leadsTo hd.directory_leads]
  cases hentries : h.entries? with
  | none => exact congrArg Option.isSome (hd.missing hentries)
  | some entries =>
      obtain ⟨found, hfound⟩ := hd.directory (by rw [hentries]; rfl)
      exact congrArg Option.isSome hfound

/-- A new directory holds no entries. -/
theorem Holds.make_directory (hd : l.Holds d ⟨bytes, none⟩) :
    ∃ t, d.makeDirectories cache.directory = (.ok (), t) ∧
      l.Holds t ⟨bytes, some fun _ => none⟩ := by
  obtain ⟨found, habove⟩ := hd.above
  have hmissing := hd.missing rfl
  have hnot : ∀ found, d.root.get? l.cacheNames ≠ some (.directory found) := by
    rw [hmissing]
    simp
  refine ⟨_, makeDirectories_of_leadsTo hd.directory_leads habove hmissing,
    hd.current_eq, (Node.get?_put_of_parted l.parted.symm).trans hd.input_eq,
    hasDirectoriesOf_put hnot _ _ habove, nofun, fun _ => ⟨[], Node.get?_put _ _ _⟩, fun _ => ?_⟩
  exact Node.get?_put_append _

/-- With the directory its entries go. -/
theorem Holds.remove_directory (hd : l.Holds d ⟨bytes, some entries⟩) :
    ∃ t, d.removeTree cache.directory = .ok t ∧ l.Holds t ⟨bytes, none⟩ := by
  obtain ⟨found, hfound⟩ := hd.directory rfl
  have hnames : l.cacheNames ≠ [] := by simp [cacheNames]
  refine ⟨_, removeTree_of_leadsTo hd.directory_leads hfound, hd.current_eq,
    (Node.get?_remove_of_parted l.parted.symm).trans hd.input_eq,
    Node.exists_get?_remove_of_prefix (List.prefix_append _ _) (by simp) (by
      rw [show d.root.get? (l.cacheAbove ++ [l.cacheName]) = _ from hfound]
      rfl),
    fun _ => ?_, nofun, fun _ => Node.get?_remove_append hnames _⟩
  exact Node.get?_remove hnames

/-! ### What operations on the entries do -/

theorem Holds.contains_entry (hd : l.Holds d h) (hkey : ScoreCache.IsKey key) :
    d.contains (cache.path key) = (h.file? key).isSome := by
  rw [contains_of_leadsTo (hd.entry_leads hkey)]
  show (d.root.get? (l.entryNames key)).isSome = _
  rw [hd.entry hkey, Option.isSome_map]

theorem Holds.read_entry (hd : l.Holds d h) (hkey : ScoreCache.IsKey key) {contents : ByteArray}
    (hentry : h.file? key = some contents) : d.read (cache.path key) = .ok contents := by
  refine read_of_leadsTo (hd.entry_leads hkey) ?_
  exact (hd.entry hkey).trans (by rw [hentry, Option.map_some])

/-- Writing an entry leaves the others alone. -/
theorem Holds.write_entry (hd : l.Holds d ⟨bytes, some entries⟩) (hkey : ScoreCache.IsKey key)
    (contents : ByteArray) :
    ∃ t, d.write (cache.path key) contents = .ok t ∧
      l.Holds t ⟨bytes, some (Function.update entries key (some contents))⟩ := by
  obtain ⟨found, hfound⟩ := hd.directory rfl
  obtain ⟨⟨habove, habove_ne⟩, hdirectory, hdirectory_ne⟩ := l.on_the_way key
  have hnot : ∀ found, d.root.get? (l.entryNames key) ≠ some (.directory found) := by
    rw [hd.entry hkey]
    cases Holdings.file? ⟨bytes, some entries⟩ key with
    | none => simp
    | some contents => simp
  refine ⟨_, write_of_leadsTo (hd.entry_leads hkey) hfound hnot contents,
    hd.current_eq, (Node.get?_put_of_parted (l.parted_entry key).symm).trans hd.input_eq,
    Node.exists_get?_put_of_prefix habove habove_ne,
    fun hnone => absurd hnone (Option.some_ne_none _),
    fun _ => Node.exists_get?_put_of_prefix hdirectory hdirectory_ne, ?_⟩
  intro other hother
  by_cases hsame : other = key
  · subst hsame
    exact (Node.get?_put _ _ _).trans (by simp [Holdings.file?])
  · refine (Node.get?_put_of_parted (l.parted_entries (Ne.symm hsame))).trans ?_
    rw [hd.entry hother, Holdings.file?, Holdings.file?, Option.bind_some, Option.bind_some,
      Function.update_of_ne hsame]

/-- Removing an entry leaves the others alone. -/
theorem Holds.remove_entry (hd : l.Holds d ⟨bytes, some entries⟩) (hkey : ScoreCache.IsKey key)
    (hentry : (entries key).isSome) :
    ∃ t, d.removeFile (cache.path key) = .ok t ∧
      l.Holds t ⟨bytes, some (Function.update entries key none)⟩ := by
  obtain ⟨contents, hcontents⟩ := Option.isSome_iff_exists.mp hentry
  obtain ⟨⟨habove, habove_ne⟩, hdirectory, hdirectory_ne⟩ := l.on_the_way key
  have hfile : d.root.get? (l.entryNames key) = some (.file contents) := by
    rw [hd.entry hkey, Holdings.file?, Option.bind_some, hcontents, Option.map_some]
  have hthere : (d.root.get? (l.entryNames key)).isSome := by
    rw [hfile]
    rfl
  refine ⟨_, removeFile_of_leadsTo (hd.entry_leads hkey) hfile,
    hd.current_eq, (Node.get?_remove_of_parted (l.parted_entry key).symm).trans hd.input_eq,
    Node.exists_get?_remove_of_prefix habove habove_ne hthere,
    fun hnone => absurd hnone (Option.some_ne_none _),
    fun _ => Node.exists_get?_remove_of_prefix hdirectory hdirectory_ne hthere, ?_⟩
  intro other hother
  by_cases hsame : other = key
  · subst hsame
    exact (Node.get?_remove (by simp)).trans (by simp [Holdings.file?])
  · refine (Node.get?_remove_of_parted (l.parted_entries (Ne.symm hsame))).trans ?_
    rw [hd.entry hother, Holdings.file?, Holdings.file?, Option.bind_some, Option.bind_some,
      Function.update_of_ne hsame]

/-! ### Together -/

/-- A change that succeeds, as an operation. -/
theorem change_of_ok {f : Disk → Except FileError Disk} {t : Disk} (hf : f d = .ok t) :
    (change f).run d = (.ok (), t) := by
  show change f d = _
  rw [change, hf]

/-- **A disk of this layout** behaves as a map. -/
def fileMap (l : Layout current input cache) : FileMap Disk input cache where
  Holds := l.Holds
  read_input hd := congrArg (·, _) hd.read_input
  write_input hd bytes := by
    obtain ⟨t, hwrite, ht⟩ := hd.write_input bytes
    exact ⟨t, change_of_ok hwrite, ht⟩
  contains_directory hd := congrArg (·, _) hd.contains_directory
  make_directory hd := hd.make_directory
  remove_directory hd := by
    obtain ⟨t, hremove, ht⟩ := hd.remove_directory
    exact ⟨t, change_of_ok hremove, ht⟩
  contains_entry hd key hkey := congrArg (·, _) (hd.contains_entry hkey)
  read_entry hd key hkey contents hentry := congrArg (·, _) (hd.read_entry hkey hentry)
  write_entry hd key hkey contents := by
    obtain ⟨t, hwrite, ht⟩ := hd.write_entry hkey contents
    exact ⟨t, change_of_ok hwrite, ht⟩
  remove_entry hd key hkey hentry := by
    obtain ⟨t, hremove, ht⟩ := hd.remove_entry hkey hentry
    exact ⟨t, change_of_ok hremove, ht⟩

end Layout

/-! ### An input file beside the directory of a cache -/

/-- A name that is a path of its own. -/
structure IsName (name : String) : Prop extends IsPlain name where
  noSlash : '/' ∉ name.toList
  noNul : '\u0000' ∉ name.toList

/-- A path that begins with a name is taken from the current directory. -/
theorem IsName.isAbsolute_append {name : String} (h : IsName name) (rest : String) :
    Path.isAbsolute (name ++ rest) = false := by
  have hempty := h.isEmpty_eq_false
  have hslash := h.noSlash
  rw [Path.isAbsolute, String.toList_append]
  cases hletters : name.toList with
  | nil =>
      obtain rfl : name = "" := String.toList_inj.mp hletters
      exact absurd hempty (by decide)
  | cons first letters =>
      rw [hletters, List.mem_cons, not_or] at hslash
      simpa using Ne.symm hslash.1

theorem IsName.isAbsolute_eq_false {name : String} (h : IsName name) :
    Path.isAbsolute name = false := by
  have happend := h.isAbsolute_append ""
  rwa [String.append_empty] at happend

theorem IsName.join_eq {directory name : String} (hdirectory : IsName directory)
    (hname : IsName name) : Path.join directory name = directory ++ "/" ++ name := by
  have hlast : directory.toList.getLast? ≠ some '/' := fun hslash =>
    hdirectory.noSlash (List.mem_of_getLast? hslash)
  rw [Path.join, hname.isAbsolute_eq_false, hdirectory.isEmpty_eq_false, Bool.or_self,
    if_neg Bool.false_ne_true, if_neg (by simpa using hlast)]

/-- A name leads to itself in the current directory. -/
theorem IsName.leadsTo {name : String} (h : IsName name)
    (hcurrent : ∀ other ∈ current, IsPlain other) : LeadsTo current name current name where
  possible := by
    have hlimit : ¬pathLimit ≤ name.utf8ByteSize := Nat.not_le.mpr (h.short.trans_lt (by decide))
    rw [pathError?, if_neg (by simpa using h.noNul), if_neg hlimit]
  nonempty := h.isEmpty_eq_false
  names := by
    rw [h.isAbsolute_eq_false, if_neg Bool.false_ne_true, Path.names,
      Path.splitNames_of_notMem h.noSlash, List.map_singleton, String.ofList_toList]
  plain other hmem := by
    rcases List.mem_append.mp hmem with hmem | hmem
    · exact hcurrent other hmem
    · rw [List.mem_singleton.mp hmem]
      exact h.toIsPlain

/-- A name in a directory leads to it there. -/
theorem IsName.leadsTo_join {directory name : String} (hdirectory : IsName directory)
    (hname : IsName name) (hcurrent : ∀ other ∈ current, IsPlain other) :
    LeadsTo current (Path.join directory name) (current ++ [directory]) name := by
  have htext : (directory ++ "/" ++ name).toList = directory.toList ++ '/' :: name.toList := by
    simp
  have hbytes : (directory ++ "/" ++ name).utf8ByteSize < pathLimit := by
    have hshort := hdirectory.short
    have hshort' := hname.short
    rw [String.utf8ByteSize_append, String.utf8ByteSize_append]
    simp only [nameLimit, pathLimit] at *
    have hslash : "/".utf8ByteSize = 1 := by decide
    omega
  rw [hdirectory.join_eq hname]
  refine ⟨?_, by simp, ?_, fun other hmem => ?_⟩
  · rw [pathError?, htext, if_neg (by simp [hdirectory.noNul, hname.noNul]),
      if_neg (Nat.not_le.mpr hbytes)]
  · have hrelative : Path.isAbsolute (directory ++ "/" ++ name) = false := by
      rw [String.append_assoc]
      exact hdirectory.isAbsolute_append _
    rw [hrelative, if_neg Bool.false_ne_true, Path.names, htext,
      Path.splitNames_append_of_notMem hdirectory.noSlash, Path.splitNames_of_notMem hname.noSlash]
    simp
  · simp only [List.mem_append, List.mem_singleton] at hmem
    rcases hmem with (hmem | rfl) | rfl
    · exact hcurrent other hmem
    · exact hdirectory.toIsPlain
    · exact hname.toIsPlain

/-- The file for a key has a name of its own. -/
theorem isName_entry {key : String} (hkey : ScoreCache.IsKey key) : IsName (key ++ ".json") := by
  obtain ⟨chunks, rfl⟩ := hkey
  have hlength := (Digest.sha256 (Digest.chunkStream chunks)).length_toList_hex
  have hsize := (Digest.sha256 (Digest.chunkStream chunks)).utf8ByteSize_hex
  have hdigits {c : Char} (hc : c ∈ (Digest.digestHex chunks).toList) : c ∈ Digest.hexDigits :=
    Digest.HashState.mem_hexDigits_of_mem_hex hc
  have hne (text : String) (htext : text.toList.length < 64) :
      Digest.digestHex chunks ++ ".json" ≠ text := by
    rintro rfl
    rw [String.toList_append, List.length_append, Digest.digestHex, hlength] at htext
    omega
  refine ⟨⟨?_, hne _ (by decide), ?_⟩, ?_, ?_⟩
  · simp [Path.isIdle, hne "." (by decide)]
  · rw [String.utf8ByteSize_append, Digest.digestHex, hsize]
    decide
  · rw [String.toList_append, List.mem_append, not_or]
    exact ⟨fun hslash => absurd (hdigits hslash) (by decide), by decide⟩
  · rw [String.toList_append, List.mem_append, not_or]
    exact ⟨fun hnul => absurd (hdigits hnul) (by decide), by decide⟩

/-- **An input file beside the directory of a cache**, both in the current directory. -/
def Layout.beside {current : List String} {input directory : String}
    (hcurrent : ∀ other ∈ current, IsPlain other) (hinput : IsName input)
    (hdirectory : IsName directory) (hne : input ≠ directory) : Layout current input ⟨directory⟩ where
  inputAbove := current
  inputName := input
  cacheAbove := current
  cacheName := directory
  input_leads := hinput.leadsTo hcurrent
  directory_leads := hdirectory.leadsTo hcurrent
  entry_leads hkey := hdirectory.leadsTo_join (isName_entry hkey) hcurrent
  parted := Node.parted_append_self_iff.mpr (Node.parted_singleton hne)

end BlockAffinity.Disk
