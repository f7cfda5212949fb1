import Spintax.Json.Record
import Spintax.Node
import Spintax.Text.Blank

/-!
# Spintax — paths

A path leads from the root of a tree to a node: the field `children` and a
position, in turn. Paths are plain data and may be malformed; only those
whose fields and positions alternate have `indices`. The empty path is the
root itself.

* `Path`, `Segment`, `PathError`;
* `Path.indices`, `Path.ofIndices` — the positions of a path, and back;
* `Path.display`, `Path.ofText` — paths as text, `/children/0/children/2`;
* `Node.descend?`, `Path.resolve?` — the node that a path leads to;
* `Path.toJson`, `Path.ofJson?` — paths in JSON, lists of strings for fields
  and integers below 2⁶⁴ for positions.
-/

namespace Spintax

/-- A part of a path. -/
inductive Segment where
  | index (i : UInt64)
  | field (name : String)
deriving DecidableEq

/-- A way down from the root of a tree. -/
structure Path where
  segments : List Segment
deriving DecidableEq

/-- What keeps a path from having positions. -/
inductive PathError where
  /-- A field other than `children`. -/
  | unknownField (name : String)
  /-- A position without a field before it. -/
  | missingField (index : UInt64)
  /-- A field without a position after it. -/
  | danglingField (name : String)
deriving DecidableEq

def PathError.message : PathError → String
  | .unknownField name => "Unknown field '" ++ name ++ "' (only 'children' can be traversed)"
  | .missingField index =>
    "Index " ++ Text.decimal index.toNat ++ " is not preceded by a field"
  | .danglingField name => "Field '" ++ name ++ "' is not followed by an index"

namespace Path

/-- The one field that leads from a node to others. -/
def childrenField : String := "children"

def root : Path := ⟨[]⟩

/-- The path of the child at a position. -/
def child (p : Path) (i : UInt64) : Path :=
  ⟨p.segments ++ [.field childrenField, .index i]⟩

/-- The segments of a list of positions. -/
def segmentsOf : List UInt64 → List Segment
  | [] => []
  | i :: is => .field childrenField :: .index i :: segmentsOf is

def ofIndices (is : List UInt64) : Path :=
  ⟨segmentsOf is⟩

/-- The positions of a list of segments, or the first reason against them. -/
def indicesOf : List Segment → Except PathError (List UInt64)
  | [] => .ok []
  | .index i :: _ => .error (.missingField i)
  | .field name :: .index i :: rest =>
    if name = childrenField then
      match indicesOf rest with
      | .ok is => .ok (i :: is)
      | .error e => .error e
    else .error (.unknownField name)
  | .field name :: _ =>
    if name = childrenField then .error (.danglingField name) else .error (.unknownField name)

def indices (p : Path) : Except PathError (List UInt64) :=
  indicesOf p.segments

/-- The path of the parent; the root and malformed paths have none. -/
def parent? (p : Path) : Option Path :=
  match p.indices with
  | .ok [] => none
  | .ok is => some (ofIndices is.dropLast)
  | .error _ => none

/-- The position among its siblings. -/
def lastIndex? (p : Path) : Option UInt64 :=
  match p.indices with
  | .ok is => is.getLast?
  | .error _ => none

/-- The path of a sibling. -/
def withLastIndex? (p : Path) (i : UInt64) : Option Path :=
  p.parent?.map (·.child i)

/-! ## Paths as text -/

/-- A segment after its slash. -/
def Segment.display : Segment → String
  | .index i => Text.decimal i.toNat
  | .field name => name

/-- The path with a slash before each segment; the root is a single slash. -/
def display (p : Path) : String :=
  if p.segments.isEmpty then "/"
  else String.join (p.segments.map fun s => "/" ++ Segment.display s)

/-- A segment as it is written: a position if it is a numeral, else a field. -/
def segmentOfText (part : List Char) : Segment :=
  match Text.numeral? part with
  | some i => .index i
  | none => .field (String.ofList part)

/-- Reads a path with or without its first slash; blanks around it and empty
parts are ignored. Only well-formed paths are accepted. -/
def ofText (s : String) : Except PathError Path :=
  let parts := ((Text.trim s.toList).splitOn '/').filter fun part => !part.isEmpty
  let p : Path := ⟨parts.map segmentOfText⟩
  match p.indices with
  | .ok _ => .ok p
  | .error e => .error e

end Path

/-! ## The node at a path -/

/-- The node that is reached by going down through positions. -/
def Node.descend? : List UInt64 → Node → Option Node
  | [], n => some n
  | i :: is, n =>
    match n.child? i.toNat with
    | some c => descend? is c
    | none => none

/-- The node that a path leads to; a malformed path leads nowhere. -/
def Path.resolve? (p : Path) (root : Node) : Option Node :=
  match p.indices with
  | .ok is => root.descend? is
  | .error _ => none

/-! ## Paths in JSON -/

def Segment.toJson : Segment → Json
  | .index i => .natural i.toNat
  | .field name => .string name

def Segment.ofJson? : Json → Option Segment
  | .string name => some (.field name)
  | v => v.word?.map .index

namespace Path

def toJson (p : Path) : Json :=
  .array (p.segments.map Segment.toJson)

/-- The path that a value describes, whether or not its segments alternate. -/
def ofJson? (v : Json) : Option Path := do
  let items ← v.items?
  return ⟨← items.mapM Segment.ofJson?⟩

end Path

/-! ## Small laws -/

namespace Path

/-- A path that is made of positions has these positions. -/
theorem indices_ofIndices (is : List UInt64) : (ofIndices is).indices = .ok is := by
  simp only [indices, ofIndices]
  induction is with
  | nil => rfl
  | cons i is ih => simp [segmentsOf, indicesOf, ih]

end Path

end Spintax
