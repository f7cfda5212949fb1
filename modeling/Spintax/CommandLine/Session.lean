import Spintax.Files

/-!
# Spintax — sessions

A session is the work of one command: it asks for files, writes to the two
output streams, and may fail with a message. What it wrote stays written when
it fails.
-/

namespace Spintax

/-- What was written to the two streams so far. -/
structure Transcript where
  out : String
  err : String
deriving DecidableEq

/-- What a program leaves behind when it ends. -/
structure Output where
  code : Nat
  stdout : String
  stderr : String
deriving DecidableEq

/-- Why a session ends before its work is done. -/
inductive Failure where
  | message (text : String)
  /-- More was asked for than any memory holds. -/
  | overflow
deriving DecidableEq

/-- The work of a command among files that `m` gives access to. -/
abbrev Session (m : Type → Type) := ExceptT Failure (StateT Transcript m)

namespace Session

variable {m : Type → Type} [Monad m]

def say (line : String) : Session m Unit :=
  modify fun t => { t with out := t.out ++ line ++ "\n" }

/-- Writes a text to the standard error stream. -/
def warn (text : String) : Session m Unit :=
  modify fun t => { t with err := t.err ++ text }

def fail {α : Type} (text : String) : Session m α :=
  throw (.message text)

/-- The answer of the files to a question. -/
def ask {α : Type} (question : m α) : Session m α :=
  liftM question

/-- The answer of the files to a request; a failure ends the session with its
reason or with the given message. -/
def request {α : Type} (answer : m (Except FileError α)) (message : FileError → String) :
    Session m α := do
  match ← ask answer with
  | .ok a => return a
  | .error e => fail (message e)

/-- Runs a session from its beginning. A message that ends it is written
between empty lines, and the exit code says that it failed; another code says
that it could not go on. -/
def output (session : Session m Unit) : m Output := do
  let (result, t) ← session.run.run ⟨"", ""⟩
  match result with
  | .ok _ => return ⟨0, t.out, t.err⟩
  | .error (.message text) => return ⟨1, t.out, t.err ++ "\nError: " ++ text ++ "\n\n"⟩
  | .error .overflow => return ⟨101, t.out, t.err ++ "capacity overflow\n"⟩

end Session

end Spintax
