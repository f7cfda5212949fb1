import Spintax.Edit
import Spintax.Node.Json

/-!
# Spintax — edits in JSON

A mutation is a variant record tagged by `op`, with a `path` and, where a node
is put into the tree, that `node`.
-/

namespace Spintax.Mutation

/-- The five edits by name. -/
inductive Op where
  | update
  | delete
  | insert
  | moveUp
  | moveDown
deriving DecidableEq

/-- The names of the edits. -/
def Op.names : List (String × Op) :=
  [("update", .update), ("delete", .delete), ("insert", .insert), ("moveUp", .moveUp),
   ("moveDown", .moveDown)]

def toJson (m : Mutation) : Json :=
  let head := [("op", Json.string m.name), ("path", m.path.toJson)]
  match m with
  | .update _ node => .object (head ++ [("node", node.toJson)])
  | .insert _ node => .object (head ++ [("node", node.toJson)])
  | _ => .object head

/-- A mutation that has a path alone. -/
def ofPath? (make : Path → Mutation) (fields : Json) : Option Mutation := do
  let [path] ← fields.record? ["path"] | none
  return make (← Json.required Path.ofJson? path)

/-- A mutation that has a path and a node. -/
def ofPathAndNode? (make : Path → Node → Mutation) (fields : Json) : Option Mutation := do
  let [path, node] ← fields.record? ["path", "node"] | none
  return make (← Json.required Path.ofJson? path) (← Json.required (Node.ofJson? true) node)

/-- The mutation that a value describes. Whether the name of the edit may be
given by position is up to the caller. -/
def ofJson? (byNumber : Bool) (v : Json) : Option Mutation := do
  let (tag, fields) ← v.variant? "op"
  match ← tag.oneOf? Op.names byNumber with
  | .update => ofPathAndNode? .update fields
  | .delete => ofPath? .delete fields
  | .insert => ofPathAndNode? .insert fields
  | .moveUp => ofPath? .moveUp fields
  | .moveDown => ofPath? .moveDown fields

end Spintax.Mutation
