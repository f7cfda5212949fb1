import Spintax.Json.Record
import Spintax.Node

/-!
# Spintax — trees in JSON

A node is a variant record tagged by `type`: texts and options have a
`content`, all but texts have `children`, which may be left out when there are
none. The children are records inside another one, so their type may also be
given by its position, from `Text` to `Root`.
-/

namespace Spintax

/-- The names of the four kinds in trees. -/
def Kind.names : List (String × Kind) :=
  [("Text", .text), ("Option", .option), ("Choice", .choice), ("Root", .root)]

def Kind.name : Kind → String
  | .text => "Text"
  | .option => "Option"
  | .choice => "Choice"
  | .root => "Root"

/-- A kind, given by its name or perhaps by its position. -/
def Kind.ofJson? (byNumber : Bool) (v : Json) : Option Kind :=
  v.oneOf? Kind.names byNumber

namespace Node

mutual

def toJson : Node → Json
  | .text content =>
    .object [("type", .string Kind.text.name), ("content", .string (String.ofList content))]
  | .option content children =>
    .object [("type", .string Kind.option.name), ("content", .string (String.ofList content)),
      ("children", .array (toJsonAll children))]
  | .choice children =>
    .object [("type", .string Kind.choice.name), ("children", .array (toJsonAll children))]
  | .root children =>
    .object [("type", .string Kind.root.name), ("children", .array (toJsonAll children))]

def toJsonAll : List Node → List Json
  | [] => []
  | n :: ns => toJson n :: toJsonAll ns

end

/-- The content of a text or an option. -/
def contentOfJson? (v : Json) : Option (List Char) :=
  v.string?.map String.toList

/-- A list of trees, each read by `read`. -/
def childrenOfJson? (read : Json → Option Node) (v : Json) : Option (List Node) :=
  v.items?.bind (·.mapM read)

/-- The node of a kind with the given other fields, its children read by `read`. -/
def ofRecord? (read : Json → Option Node) (fields : Json) : Kind → Option Node
  | .text => do
    let [content] ← fields.record? ["content"] | none
    return .text (← Json.required contentOfJson? content)
  | .option => do
    let [content, children] ← fields.record? ["content", "children"] | none
    return .option (← Json.required contentOfJson? content)
      (← Json.orDefault (childrenOfJson? read) [] children)
  | .choice => do
    let [children] ← fields.record? ["children"] | none
    return .choice (← Json.orDefault (childrenOfJson? read) [] children)
  | .root => do
    let [children] ← fields.record? ["children"] | none
    return .root (← Json.orDefault (childrenOfJson? read) [] children)

/-- The tree of a value in which records nest at most `depth` levels deep. -/
def ofJsonWithin? : Nat → Bool → Json → Option Node
  | 0, _, _ => none
  | depth + 1, byNumber, v => do
    let (tag, fields) ← v.variant? "type"
    let kind ← Kind.ofJson? byNumber tag
    ofRecord? (ofJsonWithin? depth true) fields kind

/-- The tree that a value describes. Whether its own type may be given by
position is up to the caller. -/
def ofJson? (byNumber : Bool) (v : Json) : Option Node :=
  ofJsonWithin? v.nesting byNumber v

/-! ## Small laws -/

/-- The children of a node are written one after the other. -/
theorem toJsonAll_eq_map (ns : List Node) : toJsonAll ns = ns.map toJson := by
  induction ns with
  | nil => rfl
  | cons n ns ih => rw [toJsonAll, ih, List.map_cons]

end Node

/-- The name of a kind is read back, whether or not positions are allowed. -/
theorem Kind.ofJson?_name (b : Bool) (k : Kind) : Kind.ofJson? b (.string k.name) = some k := by
  cases k <;> rfl

end Spintax
