import PiCalculus.Storage

/-! A directory tree held in memory. Paths are followed component by component from the root
of the tree: `.` stays, `..` goes back, and all but the last component must be directories.
Around the tree nothing is known but the directories that `..` and a leading slash lead to.
-/

namespace PiCalculus

/-- What stands at a place of a file tree. -/
inductive Entry where
  | file (bytes : ByteArray)
  | directory
deriving Inhabited

/-- The parts of a path between slashes, empty ones included. -/
def splitPath : List Char → List (List Char)
  | [] => [[]]
  | c :: rest =>
      if c = '/' then [] :: splitPath rest
      else
        match splitPath rest with
        | [] => [[c]]
        | part :: parts => (c :: part) :: parts

/-- The names on a path; slashes in a row count once. -/
def pathNames (path : String) : List String :=
  ((splitPath path.toList).filter (· ≠ [])).map String.ofList

/-- Where a path leads to: a place below the root of the tree, or one around the tree, given
by the names behind the last directory that is known to be there.
-/
inductive Place where
  | inside (names : List String)
  | outside (names : List String)
deriving DecidableEq, Repr, Inhabited

namespace Place

/-- Where a path starts. -/
def start (path : String) : Place :=
  if path.toList.head? = some '/' then outside [] else inside []

/-- The place is one where paths start. -/
def isRoot : Place → Bool
  | inside names | outside names => names.isEmpty

/-- Goes from a directory to what `name` stands for in it. -/
def go (place : Place) (name : String) : Place :=
  if name = "." then place
  else if name = ".." then
    match place with
    | inside [] => outside []
    | inside names => inside names.dropLast
    | outside names => outside names.dropLast
  else
    match place with
    | inside names => inside (names ++ [name])
    | outside names => outside (names ++ [name])

end Place

/-- The entries of a tree and around it, each at its place. -/
structure FileTree where
  entries : List (Place × Entry)
deriving Inhabited

namespace FileTree

def empty : FileTree := ⟨[]⟩

/-- What stands at a place; where paths start there are directories. -/
def entry? (tree : FileTree) (place : Place) : Option Entry :=
  if place.isRoot then some .directory else tree.entries.lookup place

/-- The tree with `entry` at a place, instead of what stood there. -/
def put (tree : FileTree) (place : Place) (entry : Entry) : FileTree :=
  if place.isRoot then tree
  else ⟨(place, entry) :: tree.entries.filter (·.1 ≠ place)⟩

/-- Goes to what `name` stands for, and makes it a directory if nothing is there. -/
def make (state : FileTree × Place) (name : String) : FileTree × Place :=
  let (tree, place) := state
  let next := place.go name
  if (tree.entry? next).isSome then (tree, next) else (tree.put next .directory, next)

/-- The tree with `entry` where `path` leads to, and with all directories on the way there. -/
def add (tree : FileTree) (path : String) (entry : Entry) : FileTree :=
  let names := pathNames path
  let (tree, folder) := names.dropLast.foldl make (tree, .start path)
  match names.getLast? with
  | some name => tree.put (folder.go name) entry
  | none => tree

/-- Goes to what `name` stands for and makes sure that it is a directory. -/
def goInto (tree : FileTree) (place : Place) (name : String) : Except FileFault Place :=
  match tree.entry? (place.go name) with
  | some .directory => .ok (place.go name)
  | some (.file _) => .error .notDirectory
  | none => .error .missing

/-- The place that a path leads to, and whether the path ends in a slash. -/
def follow (tree : FileTree) (path : String) : Except FileFault (Place × Bool) := do
  let names := pathNames path
  let folder ← names.dropLast.foldlM tree.goInto (.start path)
  let place := match names.getLast? with
    | some name => folder.go name
    | none => folder
  return (place, path.toList.getLast? = some '/')

def read (tree : FileTree) (path : String) : Except FileFault ByteArray := do
  let (place, slash) ← tree.follow path
  match tree.entry? place with
  | none => .error .missing
  | some .directory => .error .isDirectory
  | some (.file bytes) => if slash then .error .notDirectory else .ok bytes

/-- Writes a file, which need not exist; its directory must. A path that ends in a slash can
only lead to a directory.
-/
def write (tree : FileTree) (path : String) (text : String) : Except FileFault FileTree := do
  let (place, slash) ← tree.follow path
  if slash then .error .isDirectory
  else
    match tree.entry? place with
    | some .directory => .error .isDirectory
    | _ => .ok (tree.put place (.file text.toUTF8))

/-- A file with exactly these bytes stands at the end of `names`. -/
def holds (tree : FileTree) (names : List String) (bytes : ByteArray) : Bool :=
  match tree.entry? (.inside names) with
  | some (.file held) => held.data == bytes.data
  | _ => false

/-- The files below the root of `tree` that are new or changed since `before`. -/
def changes (before tree : FileTree) : List (List String × ByteArray) :=
  tree.entries.filterMap fun
    | (.inside names, .file bytes) =>
        if before.holds names bytes then none else some (names, bytes)
    | _ => none

/-- A tree as a storage that threads it through. -/
def storage : Storage (StateM FileTree) := .ofState read write

end FileTree

end PiCalculus
