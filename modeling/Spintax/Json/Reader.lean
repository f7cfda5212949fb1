import Spintax.Json.Token

/-!
# Spintax — reading JSON text

The tokens of a text are read from left to right with the lists and objects
that are not yet closed on a stack. A text is exactly one value: nothing may
follow it, and an empty text has none.
-/

namespace Spintax.Json

/-- A list or an object part way through, its parts last first. -/
inductive Opened where
  | array (before : List Json)
  /-- An object whose next value goes under `key`. -/
  | object (before : List (Option String × Json)) (key : Option String)

/-- What has to come next. -/
inductive Expected where
  | value
  /-- A value or the end of the list just opened. -/
  | item
  /-- A field name or the end of the object just opened. -/
  | field
  | key (before : List (Option String × Json))
  /-- The colon after a field name. -/
  | colon (before : List (Option String × Json)) (key : Option String)
  /-- What follows the value just read. -/
  | after (v : Json)

/-- The object with these fields, last first; it is unreadable if one of the
names is. -/
def ofFields (before : List (Option String × Json)) : Json :=
  match before.reverse.mapM fun (key, v) => key.map fun name => (name, v) with
  | some fields => .object fields
  | none => .unreadable

/-- The string with this content. -/
def ofContent : Option String → Json
  | some s => .string s
  | none => .unreadable

namespace Expected

/-- Where a value may stand. -/
def onValue (stack : List Opened) : Token → Option (Expected × List Opened)
  | .openArray => some (.item, stack)
  | .openObject => some (.field, stack)
  | .string s => some (.after (ofContent s), stack)
  | .scalar v => some (.after v, stack)
  | _ => none

/-- One token. -/
def step : Expected × List Opened → Token → Option (Expected × List Opened)
  | (.value, stack), t => onValue stack t
  | (.item, stack), .closeArray => some (.after (.array []), stack)
  | (.item, stack), t => onValue (.array [] :: stack) t
  | (.field, stack), .closeObject => some (.after (.object []), stack)
  | (.field, stack), .string k => some (.colon [] k, stack)
  | (.key before, stack), .string k => some (.colon before k, stack)
  | (.colon before k, stack), .colon => some (.value, .object before k :: stack)
  | (.after v, .array before :: stack), .comma => some (.value, .array (v :: before) :: stack)
  | (.after v, .array before :: stack), .closeArray =>
    some (.after (.array (v :: before).reverse), stack)
  | (.after v, .object before k :: stack), .comma => some (.key ((k, v) :: before), stack)
  | (.after v, .object before k :: stack), .closeObject =>
    some (.after (ofFields ((k, v) :: before)), stack)
  | _, _ => none

end Expected

/-- The value that a text denotes. -/
def parse? (text : String) : Option Json :=
  match (Token.ofText? text.toList).bind fun ts => ts.foldlM Expected.step (.value, []) with
  | some (.after v, []) => some v
  | _ => none

end Spintax.Json
