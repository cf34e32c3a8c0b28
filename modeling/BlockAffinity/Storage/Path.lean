/-!
# BlockAffinity.Storage.Path

**Paths** are texts with slashes between the names. A path that begins with a slash stands for
itself, any other is taken from some directory. Empty names and single dots lead nowhere.
-/

namespace BlockAffinity.Path

/-- The names of a path, empty ones included. -/
def splitNames : List Char → List (List Char)
  | [] => [[]]
  | c :: rest =>
      if c = '/' then [] :: splitNames rest
      else
        match splitNames rest with
        | [] => [[c]]
        | name :: names => (c :: name) :: names

/-- The names of a path, empty ones included. -/
def names (path : String) : List String := (splitNames path.toList).map String.ofList

/-- A name that leads nowhere. -/
def isIdle (name : String) : Bool := name == "" || name == "."

/-- Whether a path begins with a slash. -/
def isAbsolute (path : String) : Bool := path.toList.head? == some '/'

/-- A path taken from a directory. -/
def join (directory path : String) : String :=
  if isAbsolute path || directory.isEmpty then path
  else if directory.toList.getLast? == some '/' then directory ++ path
  else directory ++ "/" ++ path

/-- Names with idle ones dropped from the end. -/
def dropIdle (names : List String) : List String := (names.reverse.dropWhile isIdle).reverse

/-- The directory that a path lies in, if the path has a name. For a single name that is taken from
some directory it is the empty path. -/
def parent? (path : String) : Option String :=
  match (dropIdle (names path)).reverse with
  | [] => none
  | _ :: above =>
      let kept := dropIdle above.reverse
      some (if kept.isEmpty && isAbsolute path then "/" else "/".intercalate kept)

/-- The beginnings of a list of names that end in a name that leads somewhere, the longest first.
The list is given in reverse. -/
def beginnings : List String → List (List String)
  | [] => []
  | name :: before =>
      if isIdle name then beginnings before
      else (name :: before).reverse :: beginnings before

/-- The names of a path and those of the directories above it, the innermost first. A path that
names nothing has none. -/
def ancestors (names : List String) : List (List String) :=
  match names.reverse.dropWhile isIdle with
  | [] => []
  | _ :: above => names :: beginnings above

/-- The last name of a path. -/
def fileName (path : String) : String := ((dropIdle (names path)).getLast?).getD ""

end BlockAffinity.Path
