import ClassFile.Bytes.Basic

/-!
# Directories

A directory as the files in and below it, each by the names on the way to it, and paths that lead from it to a
place in it. A path is followed name by name, so that every name but the last has to be that of a directory, also
where two dots behind it lead back.
-/

namespace ClassFile

/-- The files in a directory and below it, by the names that lead to them. -/
structure Directory where
  files : List (List String × Bytes) := []
  deriving Repr, Inhabited

namespace Directory

/-- The names between the slashes of a path. -/
def names (path : String) : List String :=
  path.splitOn "/"

/-- Whether a name of a path stands for the directory that it is followed in. -/
def isSame (name : String) : Bool :=
  name == "" || name == "."

/-- The directory that holds files, given by their paths. -/
def ofFiles (files : List (String × Bytes)) : Directory :=
  ⟨files.map fun (path, bytes) => ((names path).filter (!isSame ·), bytes)⟩

/-- The bytes of the file at a place. -/
def file? (d : Directory) (place : List String) : Option Bytes :=
  d.files.lookup place

/-- Whether a place is a directory: the top is one, and so is what has a file below it. -/
def isDirectory (d : Directory) (place : List String) : Bool :=
  place.isEmpty || d.files.any fun (other, _) => place.isPrefixOf other && other != place

/-- Where a name leads from a place, which is nowhere if that is no directory. Two dots lead back, but not out of the
directory; all other names lead to what is there. -/
def step? (d : Directory) (place : List String) (name : String) : Option (List String) :=
  if !d.isDirectory place then none
  else if isSame name then some place
  else if name == ".." then if place.isEmpty then none else some place.dropLast
  else
    let next := place ++ [name]
    if d.isDirectory next || (d.file? next).isSome then some next else none

/-- Where names lead one after the other, from the top. -/
def follow? (d : Directory) (names : List String) : Option (List String) :=
  names.foldlM d.step? []

/-- The place that a path leads to. An empty path leads nowhere, and one that starts with a slash
leads out of the directory. -/
def resolve? (d : Directory) (path : String) : Option (List String) :=
  match path.toList with
  | [] | '/' :: _ => none
  | _ => d.follow? (names path)

/-- The bytes of the file that a path leads to. -/
def read? (d : Directory) (path : String) : Option Bytes :=
  d.resolve? path >>= d.file?

/-- The files at and below the place that a path leads to, each with its own name. -/
def below (d : Directory) (path : String) : List (String × Bytes) :=
  match d.resolve? path with
  | some place =>
    (d.files.filter fun (other, _) => place.isPrefixOf other).map fun (other, bytes) => (other.getLastD "", bytes)
  | none => []

/-- The directory with a file set to bytes. The file may be new, but its directory has to be there. -/
def write? (d : Directory) (path : String) (bytes : Bytes) : Option Directory := do
  let name := (names path).getLastD ""
  let place ← if path.toList.head? == some '/' then none else d.follow? (names path).dropLast
  let file := place ++ [name]
  if isSame name || name == ".." || !d.isDirectory place || d.isDirectory file then none
  else some ⟨(file, bytes) :: d.files.filter fun (other, _) => other != file⟩

end Directory

end ClassFile
