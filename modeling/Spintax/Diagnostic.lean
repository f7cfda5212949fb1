import Spintax.Json.Record

/-!
# Spintax — diagnostics

Reading never fails: what is malformed is kept in some form and reported. A
diagnostic names the kind of repair and the brace that made it necessary, by
its byte position in the normal text. In JSON it is a variant record tagged by
`kind`, with the position `pos` and, where the depth limit is reported, that
limit under `max_depth`.
-/

namespace Spintax

/-- A repair that reading had to make. -/
inductive Diagnostic where
  /-- The choice opened here is not closed; it is read up to the end. -/
  | unterminatedChoice (pos : Nat)
  /-- No choice is open here; the brace is kept as text. -/
  | unmatchedClose (pos : Nat)
  /-- Nothing follows this brace; it is kept as text. -/
  | strayOpen (pos : Nat)
  /-- Choices may not nest deeper than `maxDepth`; what is inside is kept as text. -/
  | nestingTooDeep (pos maxDepth : Nat)
deriving DecidableEq

namespace Diagnostic

/-- The byte position of the brace. -/
def pos : Diagnostic → Nat
  | .unterminatedChoice pos => pos
  | .unmatchedClose pos => pos
  | .strayOpen pos => pos
  | .nestingTooDeep pos _ => pos

def message : Diagnostic → String
  | .unterminatedChoice pos => "Unterminated choice opened at " ++ Text.decimal pos
  | .unmatchedClose pos => "Unmatched closing brace at " ++ Text.decimal pos
  | .strayOpen pos => "Stray opening brace at " ++ Text.decimal pos ++ " kept as text"
  | .nestingTooDeep pos maxDepth =>
    "Nesting deeper than " ++ Text.decimal maxDepth ++ " at " ++ Text.decimal pos ++
      " kept as text"

/-- The remark that stands under the highlighted brace. -/
def label : Diagnostic → String
  | .unterminatedChoice _ => "this brace is never closed"
  | .unmatchedClose _ => "no choice to close here"
  | .strayOpen _ => "nothing follows this brace"
  | .nestingTooDeep _ _ => "nesting limit reached here"

def isNestingTooDeep : Diagnostic → Bool
  | .nestingTooDeep _ _ => true
  | _ => false

/-! ## Diagnostics in JSON -/

def toJson : Diagnostic → Json
  | .unterminatedChoice pos =>
    .object [("kind", .string "unterminatedChoice"), ("pos", .natural pos)]
  | .unmatchedClose pos => .object [("kind", .string "unmatchedClose"), ("pos", .natural pos)]
  | .strayOpen pos => .object [("kind", .string "strayOpen"), ("pos", .natural pos)]
  | .nestingTooDeep pos maxDepth =>
    .object [("kind", .string "nestingTooDeep"), ("pos", .natural pos),
      ("max_depth", .natural maxDepth)]

/-- A diagnostic that has a position alone. -/
def ofPosition? (make : Nat → Diagnostic) (fields : Json) : Option Diagnostic := do
  let [pos] ← fields.record? ["pos"] | none
  return make (← Json.required Json.word? pos).toNat

/-- A report of the depth limit. -/
def ofNesting? (fields : Json) : Option Diagnostic := do
  let [pos, maxDepth] ← fields.record? ["pos", "max_depth"] | none
  return .nestingTooDeep (← Json.required Json.word? pos).toNat
    (← Json.required Json.word? maxDepth).toNat

def ofJson? (v : Json) : Option Diagnostic := do
  let (tag, fields) ← v.variant? "kind"
  match tag with
  | .string "unterminatedChoice" => ofPosition? .unterminatedChoice fields
  | .string "unmatchedClose" => ofPosition? .unmatchedClose fields
  | .string "strayOpen" => ofPosition? .strayOpen fields
  | .string "nestingTooDeep" => ofNesting? fields
  | _ => none

end Diagnostic

end Spintax
