import ConstraintNet.Refusal
import ConstraintNet.Text.Pieces
/-!
# File trees

Files in memory, with a working directory.  A path is names between slashes.  It
starts at the root if a slash stands in front, and in the working directory if
not.  An empty name and a dot stay where they are, two dots go up, and any other
name goes down; only a directory can be passed through.
-/

namespace ConstraintNet.Command

/-- Files by the names on the way from the root, and the names on the way to the
working directory.  The first of two files in one place counts. -/
structure FileTree where
  home : List String := []
  files : List (List String × ByteArray) := []

/-- What stands in a place. -/
inductive Entry
  | file (contents : ByteArray)
  | directory

namespace FileTree

/-- The longest path, in bytes. -/
def maxPath : Nat := 4095

/-- The longest name, in bytes. -/
def maxName : Nat := 255

/-- The names of a path. -/
def names (path : String) : List String :=
  (Text.cut (· == '/') path.toList).map String.ofList

/-- The place that a path starts from. -/
def start (t : FileTree) (path : String) : List String :=
  if path.toList.head? = some '/' then [] else t.home

/-- Whether a name stays in its directory. -/
def stays (name : String) : Bool := name.isEmpty || name == "."

/-- The place where a name leads. -/
def step (place : List String) (name : String) : List String :=
  if stays name then place
  else if name == ".." then place.dropLast
  else place ++ [name]

/-- The tree with a file where a path leads.  It takes the place of a file
there. -/
def insert (t : FileTree) (path : String) (contents : ByteArray) : FileTree :=
  { t with
    files := ((names path).foldl step (t.start path), contents) :: t.files }

/-- What stands in a place.  Every place on the way to a file or to the working
directory is a directory. -/
def entry? (t : FileTree) (place : List String) : Option Entry :=
  match t.files.lookup place with
  | some contents => some (.file contents)
  | none =>
    if (t.home :: t.files.map Prod.fst).any place.isPrefixOf then
      some .directory
    else none

/-- Follows names from a place to an entry. -/
def follow (t : FileTree) (place : List String) :
    List String → Except FileProblem Entry
  | [] => match t.entry? place with
    | some entry => .ok entry
    | none => .error .missing
  | name :: rest => match t.entry? place with
    | some .directory =>
      if maxName < name.utf8ByteSize then .error .nameTooLong
      else t.follow (step place name) rest
    | some (.file _) => .error .notDirectory
    | none => .error .missing

/-- The contents of the file where a path leads. -/
def read (t : FileTree) (path : String) : Except FileProblem ByteArray :=
  if path.isEmpty then .error .missing
  else if maxPath < path.utf8ByteSize then .error .nameTooLong
  else match t.follow (t.start path) (names path) with
    | .ok (.file contents) => .ok contents
    | .ok .directory => .error .directory
    | .error problem => .error problem

end FileTree

end ConstraintNet.Command
