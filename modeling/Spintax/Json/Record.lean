import Spintax.Json
import Spintax.Text.Numeral

/-!
# Spintax — records in JSON

A record is written as an object, whose field names may come in any order
among unknown ones, or as the list of its fields in their own order, of which
the last may be missing. A known field that comes twice is an error.

A *variant* is a record with a tag that says which fields follow: a field
among the others, or the first element of the list. Where a table gives names
to alternatives, an alternative inside another record may also be given by
its position in the table.
-/

namespace Spintax.Json

/-- The values that stand under a name. -/
def valuesOf (name : String) (fields : List (String × Json)) : List Json :=
  (fields.filter fun f => f.1 == name).map Prod.snd

/-- The field of a name, `none` inside if there is none; no answer if it comes
twice. -/
def field? (name : String) (fields : List (String × Json)) : Option (Option Json) :=
  match valuesOf name fields with
  | [] => some none
  | [v] => some (some v)
  | _ => none

/-- The fields of a record, in the order of `names`. -/
def record? (names : List String) : Json → Option (List (Option Json))
  | .object fields => names.mapM fun name => field? name fields
  | .array items =>
    if items.length ≤ names.length then
      some (items.map some ++ List.replicate (names.length - items.length) none)
    else none
  | _ => none

/-- The tag of a variant, and the record of its other fields. -/
def variant? (tag : String) : Json → Option (Json × Json)
  | .object fields =>
    match valuesOf tag fields with
    | [t] => some (t, .object (fields.filter fun f => f.1 != tag))
    | _ => none
  | .array (t :: items) => some (t, .array items)
  | _ => none

/-- The alternative that a table gives to a name or, if `byNumber` holds, to a
position. -/
def oneOf? {α : Type _} (table : List (String × α)) (byNumber : Bool) : Json → Option α
  | .string s => table.lookup s
  | .natural n => if byNumber then (table[n]?).map Prod.snd else none
  | _ => none

def string? : Json → Option String
  | .string s => some s
  | _ => none

/-- An integer from 0 to 2⁶⁴ - 1. -/
def word? : Json → Option UInt64
  | .natural n => Text.toWord? n
  | _ => none

def items? : Json → Option (List Json)
  | .array items => some items
  | _ => none

/-- A field that may be left out, with the value it then has. -/
def orDefault {α : Type _} (read : Json → Option α) (default : α) : Option Json → Option α
  | some v => read v
  | none => some default

/-- A field that has to be there. -/
def required {α : Type _} (read : Json → Option α) : Option Json → Option α
  | some v => read v
  | none => none

/-! ## Small laws -/

theorem word?_natural (n : UInt64) : word? (.natural n.toNat) = some n :=
  Text.toWord?_toNat n

end Spintax.Json
