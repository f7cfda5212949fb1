import Spintax.Files

/-!
# Spintax — files in memory

A directory tree that is kept as data: the files by the names that lead to
them from the top of the tree, and the directories that were made. A directory
also exists as soon as there is something below it. One of the directories is
the working directory, from which paths are taken.

The tree behaves like that of a system: a path is walked name by name, `..`
leads to the directory above and nowhere from the top, and a slash at the end of
a path asks for a directory.
-/

namespace Spintax

/-- A directory tree. -/
structure MemoryFiles where
  /-- The names that lead to the working directory. -/
  working : List String
  /-- The files, each under the names that lead to it. -/
  files : List (List String × String)
  /-- What is neither file nor directory. It is always empty. -/
  specials : List (List String)
  directories : List (List String)

namespace MemoryFiles

/-! ## Walking -/

/-- What stands where the names lead to. -/
def kindAt? (t : MemoryFiles) (place : List String) : Option FileKind :=
  if t.files.any fun f => f.1 == place then some .file
  else if t.specials.contains place then some .special
  else if place.isPrefixOf t.working || t.directories.any (place.isPrefixOf ·) ||
      t.specials.any (place.isPrefixOf ·) || t.files.any fun f => place.isPrefixOf f.1 then
    some .directory
  else none

/-- The most bytes of a name. -/
def maxNameBytes : Nat := 255

/-- The most bytes of a path. -/
def maxPathBytes : Nat := 4095

/-- Where names lead to from a place. Every step needs a directory to go on
from; the last name may be new. -/
def descend (t : MemoryFiles) (place : List String) : List String → Except FileError (List String)
  | [] => .ok place
  | name :: names =>
    match t.kindAt? place with
    | none => .error .notFound
    | some .directory =>
      if Files.isHere name then descend t place names
      else if name = ".." then descend t place.dropLast names
      else if maxNameBytes < name.utf8ByteSize then .error .nameTooLong
      else descend t (place ++ [name]) names
    | some _ => .error .notDirectory

/-- Where the names of a path lead to. A path that starts with a slash, and
hence with an empty name, is taken from the top. -/
def locateNames (t : MemoryFiles) (names : List String) : Except FileError (List String) :=
  if maxPathBytes < ("/".intercalate names).utf8ByteSize then .error .nameTooLong
  else if names.head? = some "" then t.descend [] names
  else t.descend t.working names

/-- Where a path leads to. The empty path leads nowhere. -/
def locate (t : MemoryFiles) (path : String) : Except FileError (List String) :=
  if path.isEmpty then .error .notFound else t.locateNames (Files.names path)

def kind? (t : MemoryFiles) (path : String) : Option FileKind :=
  match t.locate path with
  | .ok place => t.kindAt? place
  | .error _ => none

/-! ## Files -/

def read (t : MemoryFiles) (path : String) : Except FileError String := do
  let place ← t.locate path
  match t.kindAt? place with
  | none => throw .notFound
  | some .file => return (t.files.lookup place).getD ""
  | some .directory => throw .isDirectory
  | some .special => return ""

/-- The tree with a file; there has to be a directory to hold it. -/
def write (t : MemoryFiles) (path content : String) : Except FileError MemoryFiles := do
  let names := Files.names path
  let place ← t.locateNames (Files.dropSlashes names)
  -- a file cannot be asked for as a directory, even where there is none
  if names.getLast? = some "" then throw .isDirectory
  match t.kindAt? place with
  | some .directory => throw .isDirectory
  | some .special => return t
  | _ => return { t with files := (place, content) :: t.files.filter fun f => f.1 != place }

/-! ## Directories -/

/-- The tree with one more directory. -/
def addDirectory (t : MemoryFiles) (names : List String) : Except FileError MemoryFiles := do
  let place ← t.locateNames (Files.dropSlashes names)
  if (t.kindAt? place).isSome then throw .alreadyExists
  else return { t with directories := place :: t.directories }

/-- Whether the names of a path lead to a directory. -/
def isDirectory (t : MemoryFiles) (names : List String) : Bool :=
  match t.locateNames names with
  | .ok place => t.kindAt? place == some .directory
  | .error _ => false

/-- The tree with one more directory, or unchanged where that is one already. -/
def ensureDirectory (t : MemoryFiles) (names : List String) : Except FileError MemoryFiles :=
  match t.addDirectory names with
  | .ok t => .ok t
  | .error e => if t.isDirectory names then .ok t else .error e

/-- The tree with the first of the directories, each of which is above the one
before it. Only if something is missing on the way are those above made first. -/
def ensureDirectories (t : MemoryFiles) : List (List String) → Except FileError MemoryFiles
  | [] => .ok t
  | names :: above =>
    match t.ensureDirectory names with
    | .error .notFound => do (← t.ensureDirectories above).ensureDirectory names
    | result => result

/-- The tree with a directory and those above it. -/
def makeDirectory (t : MemoryFiles) (path : String) : Except FileError MemoryFiles :=
  let names := Files.names path
  t.ensureDirectories (names :: Files.directoriesAbove names.reverse)

/-- The files below a directory. -/
def filesBelow (t : MemoryFiles) (path : String) : List (List String) :=
  match t.locate path with
  | .ok place =>
    (t.files.filter fun f => place.isPrefixOf f.1 && f.1 != place).map fun f =>
      f.1.drop place.length
  | .error _ => []

/-! ## Trees as lists of files -/

/-- A tree with the given files, named by paths from the working directory. -/
def ofList (working : List String) (files : List (String × String))
    (specials : List (List String)) : MemoryFiles where
  working := working
  files := files.map fun (path, content) =>
    (working ++ (Files.names path).filter fun name => !Files.isHere name, content)
  specials := specials
  directories := []

/-- The files below the working directory, named by paths from there. -/
def toList (t : MemoryFiles) : List (String × String) :=
  (t.files.filter fun f => t.working.isPrefixOf f.1).map fun (place, content) =>
    ("/".intercalate (place.drop t.working.length), content)

/-- The path of the working directory. -/
def workingPath (t : MemoryFiles) : String :=
  "/" ++ "/".intercalate t.working

/-- A change of the tree that may fail. -/
def update (change : MemoryFiles → Except FileError MemoryFiles) :
    StateM MemoryFiles (Except FileError Unit) := fun t =>
  match change t with
  | .ok t => (.ok (), t)
  | .error e => (.error e, t)

instance : FileAccess (StateM MemoryFiles) where
  workingDirectory := fun t => (t.workingPath, t)
  kind? path := fun t => (t.kind? path, t)
  read path := fun t => (t.read path, t)
  write path content := update (·.write path content)
  makeDirectory path := update (·.makeDirectory path)
  filesBelow path := fun t => (t.filesBelow path, t)

end MemoryFiles

end Spintax
