/-!
# Spintax — JSON values

The data format of trees, edit scripts and project files. An object is the
list of its fields in the order in which they are written, repetitions
included. Of numbers only the nonnegative integers matter to this library;
any other number is kept as it is written and never taken for an integer.

* `Json` — the values;
* `Json.nesting` — how deep lists and objects nest;
* `Json.isReadable` — whether every scalar in a value denotes something.
-/

namespace Spintax

inductive Json where
  | null
  | bool (b : Bool)
  /-- An integer written with digits alone. -/
  | natural (n : Nat)
  /-- Any other number, as it is written: with a sign, a fraction or an exponent. -/
  | number (text : String)
  | string (s : String)
  | array (items : List Json)
  | object (fields : List (String × Json))
  /-- A value in the right form that denotes nothing: a number too large for a
  double, or a string or field name with half of a surrogate pair in it. -/
  | unreadable

namespace Json

instance : Inhabited Json := ⟨.null⟩

mutual

/-- How many lists and objects stand inside one another. -/
def nesting : Json → Nat
  | .array items => nestingAll items + 1
  | .object fields => nestingFields fields + 1
  | _ => 0

def nestingAll : List Json → Nat
  | [] => 0
  | v :: vs => max (nesting v) (nestingAll vs)

def nestingFields : List (String × Json) → Nat
  | [] => 0
  | (_, v) :: fs => max (nesting v) (nestingFields fs)

end

mutual

/-- Whether every part of the value denotes something. -/
def isReadable : Json → Bool
  | .array items => isReadableAll items
  | .object fields => isReadableFields fields
  | .unreadable => false
  | _ => true

def isReadableAll : List Json → Bool
  | [] => true
  | v :: vs => isReadable v && isReadableAll vs

def isReadableFields : List (String × Json) → Bool
  | [] => true
  | (_, v) :: fs => isReadable v && isReadableFields fs

end

end Json

end Spintax
