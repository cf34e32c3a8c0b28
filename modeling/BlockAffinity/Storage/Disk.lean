import BlockAffinity.Storage.Basic
import BlockAffinity.Storage.Node
import BlockAffinity.Storage.Path

/-!
# BlockAffinity.Storage.Disk

**A disk in memory**: a tree of files and directories. Paths are followed name by name from the
root; every name but the last has to lead to a directory. A path that is too long leads nowhere,
and a name that is too long is not even looked up.

The disk is a state, and the state monad over it has storage.
-/

namespace BlockAffinity

/-- Files and directories in a tree; the root is a directory. -/
structure Disk where
  /-- The names of the directory that relative paths are taken from. -/
  current : List String
  root : Node

/-- Where a path leads, and what is there. -/
structure Location where
  names : List String
  /-- Whether the path ends in a slash, a dot or two dots, so that only a directory can be meant. -/
  asDirectory : Bool
  node? : Option Node

namespace Disk

/-- The most bytes that a name may have. -/
def nameLimit : Nat := 255

/-- The number of bytes from which on a path is too long. -/
def pathLimit : Nat := 4096

/-- Directories below the root by their names, each held by the next, the innermost first. -/
abbrev Trail := List (String × Node)

/-- The names that lead from the root along a trail. -/
def Trail.names (trail : Trail) : List String := (trail.map Prod.fst).reverse

/-- Follows names from the end of a trail. -/
def follow (root : Node) (trail : Trail) : List String → Except FileError Location
  | [] => .ok ⟨trail.names, true, some ((trail.head?.map Prod.snd).getD root)⟩
  | name :: rest =>
      match (trail.head?.map Prod.snd).getD root with
      | .file _ => .error .notDirectory
      | .directory entries =>
          if Path.isIdle name then follow root trail rest
          else if name = ".." then follow root trail.tail rest
          else if nameLimit < name.utf8ByteSize then .error .nameTooLong
          else if rest.all String.isEmpty then
            .ok ⟨trail.names ++ [name], !rest.isEmpty, entries.lookup name⟩
          else
            match entries.lookup name with
            | none => .error .notFound
            | some node => follow root ((name, node) :: trail) rest

/-- The names that lead from the root along a path. -/
def namesFromRoot (d : Disk) (path : String) : List String :=
  if Path.isAbsolute path then Path.names path else d.current ++ Path.names path

/-- What is wrong with a path itself, whatever the disk holds. -/
def pathError? (path : String) : Option FileError :=
  if path.toList.contains '\u0000' then some .embeddedNul
  else if pathLimit ≤ path.utf8ByteSize then some .nameTooLong
  else none

/-- Where a path leads. The empty path leads nowhere. -/
def locate (d : Disk) (path : String) : Except FileError Location :=
  match pathError? path with
  | some e => .error e
  | none => if path.isEmpty then .error .notFound else follow d.root [] (d.namesFromRoot path)

/-- Puts a node where names lead from the root. -/
def put (d : Disk) (names : List String) (node : Node) : Disk :=
  { d with root := d.root.put node names }

/-- Removes the node where names lead from the root. -/
def remove (d : Disk) (names : List String) : Disk := { d with root := d.root.remove names }

/-- The contents of a file. -/
def read (d : Disk) (path : String) : Except FileError ByteArray := do
  let location ← d.locate path
  match location.node? with
  | none => .error .notFound
  | some (.directory _) => .error .isDirectory
  | some (.file contents) => if location.asDirectory then .error .notDirectory else .ok contents

/-- Creates a file or replaces its contents. -/
def write (d : Disk) (path : String) (contents : ByteArray) : Except FileError Disk := do
  let location ← d.locate path
  if location.asDirectory then .error .isDirectory
  else
    match location.node? with
    | some (.directory _) => .error .isDirectory
    | _ => .ok (d.put location.names (.file contents))

/-- Whether there is a file or a directory. -/
def contains (d : Disk) (path : String) : Bool :=
  match d.locate path with
  | .error _ => false
  | .ok location =>
      match location.node? with
      | none => false
      | some (.directory _) => true
      | some (.file _) => !location.asDirectory

/-- Creates a directory where names lead from the root. -/
def makeDirectory (d : Disk) (names : List String) : Except FileError Disk := do
  let location ← follow d.root [] names
  match location.node? with
  | some _ => .error .exists
  | none => .ok (d.put location.names .empty)

/-- Whether names lead from the root to a directory. -/
def isDirectory (d : Disk) (names : List String) : Bool :=
  match follow d.root [] names with
  | .ok ⟨_, _, some (.directory _)⟩ => true
  | _ => false

/-- What an attempt to create a directory comes to: one that is already there is as good as a new
one. -/
def settle (d : Disk) (names : List String) :
    Except FileError Disk → Except FileError Unit × Disk
  | .ok made => (.ok (), made)
  | .error e => (if d.isDirectory names then .ok () else .error e, d)

/-- Creates the first of some directories, each of which holds the one before it. Where it cannot
be created because the next is missing, the next is created first; what was created stays, even if
a later step fails. -/
def makeAlong (d : Disk) : List (List String) → Except FileError Unit × Disk
  | [] => (.ok (), d)
  | names :: above =>
      match d.makeDirectory names with
      | .error .notFound =>
          match d.makeAlong above with
          | (.ok (), made) => made.settle names (made.makeDirectory names)
          | failed => failed
      | attempt => d.settle names attempt

/-- Creates a directory and those above it. -/
def makeDirectories (d : Disk) (path : String) : Except FileError Unit × Disk :=
  match pathError? path with
  | some e => (.error e, d)
  | none => d.makeAlong (Path.ancestors (d.namesFromRoot path))

/-- Removes a file. -/
def removeFile (d : Disk) (path : String) : Except FileError Disk := do
  let location ← d.locate path
  match location.node? with
  | none => .error .notFound
  | some (.directory _) => .error .isDirectory
  | some (.file _) =>
      if location.asDirectory then .error .notDirectory else .ok (d.remove location.names)

/-- Removes a directory with everything in it. -/
def removeTree (d : Disk) (path : String) : Except FileError Disk := do
  let location ← d.locate path
  match location.node? with
  | none => .error .notFound
  | some (.file _) => .error .notDirectory
  | some (.directory _) => .ok (d.remove location.names)

/-- The files below a directory, by their paths from there. -/
def filesBelow (d : Disk) (path : String) : List (String × ByteArray) :=
  match d.locate path with
  | .ok ⟨_, _, some (.directory entries)⟩ =>
      (Node.directory entries).files.map fun file => ("/".intercalate file.1, file.2)
  | _ => []

/-- Names from the root as an absolute path. -/
def pathText (names : List String) : String := "/" ++ "/".intercalate names

/-- A disk that holds nothing but one directory, from which relative paths are taken. -/
def within (current : List String) : Disk := ⟨current, Node.empty.put .empty current⟩

/-- Applies a change that may fail; a change that fails leaves the disk as it is. -/
def change (f : Disk → Except FileError Disk) : StateM Disk (Except FileError Unit) := fun d =>
  match f d with
  | .error e => (.error e, d)
  | .ok changed => (.ok (), changed)

instance : Storage (StateM Disk) where
  read path := fun d => (d.read path, d)
  write path contents := change fun d => d.write path contents
  contains path := fun d => (d.contains path, d)
  makeDirectories path := fun d => d.makeDirectories path
  removeFile path := change fun d => d.removeFile path
  removeTree path := change fun d => d.removeTree path
  workingDirectory := fun d => (.ok (pathText d.current), d)

end Disk

end BlockAffinity
