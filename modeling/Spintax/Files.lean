/-!
# Spintax — files

What the command line asks of the files around it, whatever they are kept in:
`FileAccess` is an interface with one operation for each question. Paths are
strings with slashes, taken from the working directory unless they start with
one.

* `FileKind`, `FileError`, `FileAccess`;
* `Files.join`, `Files.extension?` — paths as text.
-/

namespace Spintax

/-- What can stand at a path. -/
inductive FileKind where
  | file
  | directory
  /-- Anything else that can be read and written, such as a device. -/
  | special
deriving DecidableEq

/-- Why a file cannot be read or written. -/
inductive FileError where
  | notFound
  | alreadyExists
  | notDirectory
  | isDirectory
  | nameTooLong
  /-- Any other reason, as the system words it. -/
  | other (reason : String)
deriving DecidableEq

def FileError.message : FileError → String
  | .notFound => "No such file or directory (os error 2)"
  | .alreadyExists => "File exists (os error 17)"
  | .notDirectory => "Not a directory (os error 20)"
  | .isDirectory => "Is a directory (os error 21)"
  | .nameTooLong => "File name too long (os error 36)"
  | .other reason => reason

class FileAccess (m : Type → Type) where
  /-- The working directory, as a path from the top. -/
  workingDirectory : m String
  /-- What stands at a path, if anything. -/
  kind? : String → m (Option FileKind)
  read : String → m (Except FileError String)
  /-- Makes a file or replaces its content. -/
  write : String → String → m (Except FileError Unit)
  /-- Makes a directory and those above it, as far as they are missing. -/
  makeDirectory : String → m (Except FileError Unit)
  /-- The files below a directory at any depth, each as the list of names that
  leads to it. -/
  filesBelow : String → m (List (List String))

namespace Files

/-- A path taken from a directory. -/
def join (directory path : String) : String :=
  if path.startsWith "/" then path
  else if directory.isEmpty || directory.endsWith "/" then directory ++ path
  else directory ++ "/" ++ path

/-- The names between the slashes of a path. -/
def names (path : String) : List String :=
  (path.toList.splitOn '/').map String.ofList

/-- Whether a name stands for the place that it is taken from. -/
def isHere (name : String) : Bool :=
  name.isEmpty || name == "."

/-- The names of a path without the empty ones that slashes at its end leave. -/
def dropSlashes (names : List String) : List String :=
  (names.reverse.dropWhile String.isEmpty).reverse

/-- The names that lead to the directory of a path, those that lead to the
directory of that one, and so on; the path is given by its names last first. -/
def directoriesAbove : List String → List (List String)
  | [] => []
  | name :: before =>
    if isHere name then directoriesAbove before
    else (before.dropWhile isHere).reverse :: directoriesAbove before

/-- What follows the last dot of a name, unless that is its only dot and
nothing stands before it. -/
def extension? (name : String) : Option String :=
  match (name.toList.splitOn '.').reverse with
  | [] => none
  | [_] => none
  | [_, []] => none
  | last :: _ => if name = ".." then none else some (String.ofList last)

end Files

end Spintax
