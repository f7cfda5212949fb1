import Spintax.CommandLine.Run

/-!
# Spintax — the program

The files of the system, and the entry point. All decisions are made by
`CommandLine.run`; here are only the calls that touch the outside.
-/

namespace Spintax

/-- The reason that the system gives. -/
def FileError.ofIO : IO.Error → FileError
  | .noFileOrDirectory _ _ _ => .notFound
  | .alreadyExists _ _ _ => .alreadyExists
  | e => .other (toString e)

/-- An action with its failure as a value. -/
def attempt {α : Type} (action : IO α) : IO (Except FileError α) := do
  try return .ok (← action) catch e => return .error (.ofIO e)

/-- The system's entry for a path. -/
def entry (path : String) : IO.FS.DirEntry := ⟨path, ""⟩

/-- What stands at a path of the system. -/
def kindOnDisk? (path : String) : IO (Option FileKind) := do
  try
    match (← (entry path).root.metadata).type with
    | .dir => return some .directory
    | .file => return some .file
    | _ => return some .special
  catch _ => return none

/-- The files below a directory of the system, whose names begin with `names`. -/
partial def filesOnDisk (path : String) (names : List String) : IO (List (List String)) := do
  let mut found := #[]
  for e in ← (entry path).root.readDir do
    let below := Files.join path e.fileName
    match ← kindOnDisk? below with
    | some .file => found := found.push (names ++ [e.fileName])
    | some .directory => found := found ++ (← filesOnDisk below (names ++ [e.fileName]))
    | _ => pure ()
  return found.toList

instance : FileAccess IO where
  workingDirectory := do return (← IO.currentDir).toString
  kind? := kindOnDisk?
  read path := attempt (IO.FS.readFile path)
  write path content := attempt (IO.FS.writeFile path content)
  makeDirectory path := attempt (IO.FS.createDirAll path)
  filesBelow path := filesOnDisk path []

/-- A word from the system's source of chance. -/
def randomWord : IO UInt64 := do
  return (← IO.getRandomBytes 8).foldl (fun word byte => word * 256 + byte.toUInt64) 0

end Spintax

/-- Runs the program and shows what it wrote. -/
def main (args : List String) : IO UInt32 := do
  let output ← Spintax.CommandLine.run (← Spintax.randomWord) args
  IO.print output.stdout
  IO.eprint output.stderr
  return output.code.toUInt32
