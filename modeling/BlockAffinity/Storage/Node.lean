/-!
# BlockAffinity.Storage.Node

**Trees of files and directories.** A directory holds nodes by their names; a list of names leads
from a node to one below it.
-/

namespace BlockAffinity

/-- A file or a directory. -/
inductive Node
  | file (contents : ByteArray)
  | directory (entries : List (String × Node))

namespace Node

/-- A directory that holds nothing. -/
def empty : Node := .directory []

/-- What a directory holds; a file holds no nodes. -/
def entries : Node → List (String × Node)
  | .file _ => []
  | .directory entries => entries

/-- What a directory holds under other names than this one. -/
def others (node : Node) (name : String) : List (String × Node) :=
  node.entries.filter fun entry => entry.1 != name

/-- The node that a directory holds under a name. -/
def child? (node : Node) (name : String) : Option Node := node.entries.lookup name

/-- The node that names lead to. -/
def get? (node : Node) : List String → Option Node
  | [] => some node
  | name :: rest => (node.child? name).bind (·.get? rest)

/-- Puts a node where names lead, in place of what was there. Directories on the way that are
missing are made. -/
def put (node : Node) (placed : Node) : List String → Node
  | [] => placed
  | name :: rest =>
      .directory ((name, ((node.child? name).getD empty).put placed rest) :: node.others name)

/-- Removes the node that names lead to. The node itself can only be emptied. -/
def remove (node : Node) : List String → Node
  | [] => empty
  | [name] => .directory (node.others name)
  | name :: rest =>
      match node.child? name with
      | none => node
      | some child => .directory ((name, child.remove rest) :: node.others name)

mutual

/-- The files of a tree, each with the names that lead to it. -/
def files : Node → List (List String × ByteArray)
  | .file contents => [([], contents)]
  | .directory entries => filesOf entries

/-- The files below the entries of a directory. -/
def filesOf : List (String × Node) → List (List String × ByteArray)
  | [] => []
  | (name, node) :: rest =>
      node.files.map (fun file => (name :: file.1, file.2)) ++ filesOf rest

end

/-- What is put at a place is found there. -/
theorem get?_put (node placed : Node) (names : List String) :
    (node.put placed names).get? names = some placed := by
  induction names generalizing node with
  | nil => rfl
  | cons name rest ih => simp [put, get?, child?, entries, ih]

end Node

end BlockAffinity
