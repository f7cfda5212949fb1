import Spintax.Json.Printer
import Spintax.Json.Reader
import Spintax.Settings

/-!
# Spintax — commands and projects

What the command line can be asked to do, once its arguments are understood, and
what it finds out about the directory it works in: a project is a directory with
a file that says where its texts are, what their names end in, and the settings
of documents.
-/

namespace Spintax

/-! ## Commands -/

/-- Where a command takes its text from. -/
inductive InputSource where
  /-- No text was given. -/
  | missing
  | file (path : String)
  | inline (text : String)
deriving DecidableEq

/-- The commands with their options. -/
inductive Command where
  /-- Writes a project file and an example. -/
  | init (srcDir extension : String) (force : Bool)
  /-- Shows the tree and the diagnostics as JSON. -/
  | parse (input : InputSource) (compact : Bool)
  /-- Shows the canonical text, or whether the input is canonical. -/
  | format (input : InputSource) (check : Bool)
  /-- Shows the number of renderings. -/
  | count (input : InputSource) (ceiling : Option UInt64)
  /-- Shows random renderings. -/
  | render (input : InputSource) (samples : Nat) (seed : Option UInt64)
  /-- Shows all renderings. -/
  | enumerate (input : InputSource) (limit : UInt64)
  /-- Runs an edit script. -/
  | edit (input : InputSource) (script : String) (json strict : Bool)
  /-- Checks the texts of a directory. -/
  | check (input : Option String) (strict : Bool)
deriving DecidableEq

inductive Invocation where
  | version
  | help
  | run (command : Command)
deriving DecidableEq

namespace CommandLine

def programName : String := "choicetext"

def version : String := "0.1.0"

/-- How many renderings `enumerate` shows at most, unless it is told. -/
def defaultLimit : UInt64 := 1000

end CommandLine

/-! ## Projects -/

/-- What the project file says. -/
structure Project where
  /-- The directory that is searched for texts. -/
  srcDir : String
  /-- What follows the last dot in the name of a text. -/
  extension : String
  editor : Settings
deriving DecidableEq

namespace Project

def fileName : String := "choicetext.config.json"

/-- The project of a directory without a project file. -/
def default : Project :=
  ⟨"src", "choice", Settings.default⟩

def toJson (p : Project) : Json :=
  .object [("srcDir", .string p.srcDir), ("extension", .string p.extension),
    ("editor", p.editor.toJson)]

/-- The project that a value describes; what it leaves out is as by default. -/
def ofJson? (v : Json) : Option Project := do
  let [srcDir, extension, editor] ← v.record? ["srcDir", "extension", "editor"] | none
  return {
    srcDir := ← Json.orDefault Json.string? default.srcDir srcDir
    extension := ← Json.orDefault Json.string? default.extension extension
    editor := ← Json.orDefault Settings.ofJson? default.editor editor
  }

/-- The project of the text of a project file. -/
def ofText? (text : String) : Option Project := do
  ofJson? (← Json.parse? text)

end Project

end Spintax
