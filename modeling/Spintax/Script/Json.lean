import Spintax.Edit.Json
import Spintax.Json.Reader
import Spintax.Script

/-!
# Spintax — edit scripts in JSON

A script is the list of its steps: objects for mutations, the words `undo`,
`redo` and `clearAll` for the others. Such a word may also be a field without
a value. Since steps are records inside a list, the name of an edit may also be
given by its position.
-/

namespace Spintax

namespace Step

/-- The steps that are single words. -/
def words : List (String × Step) :=
  [("undo", .undo), ("redo", .redo), ("clearAll", .clearAll)]

def toJson : Step → Json
  | .undo => .string "undo"
  | .redo => .string "redo"
  | .clearAll => .string "clearAll"
  | .edit m => m.toJson

/-- The step of a value that is a word. -/
def ofWord? : Json → Option Step
  | .string word => words.lookup word
  | .object [(word, .null)] => words.lookup word
  | _ => none

def ofJson? (v : Json) : Option Step :=
  match ofWord? v with
  | some step => some step
  | none => (Mutation.ofJson? true v).map .edit

end Step

namespace Script

/-- How deep the lists and objects of a script may nest. -/
def maxNesting : Nat := 127

def toJson (steps : List Step) : Json :=
  .array (steps.map Step.toJson)

def ofJson? (v : Json) : Option (List Step) := do
  (← v.items?).mapM Step.ofJson?

/-- The script of a text. Every part of it has to be readable, also those that
no step asks for. -/
def ofText? (text : String) : Option (List Step) := do
  let v ← Json.parse? text
  if v.isReadable && v.nesting ≤ maxNesting then ofJson? v else none

end Script

end Spintax
