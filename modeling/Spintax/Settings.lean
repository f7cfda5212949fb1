import Spintax.History
import Spintax.Reading
import Spintax.Variations

/-!
# Spintax — settings

What a document goes by: how long its history is, up to where variations are
counted, and how deep choices may nest. In JSON the settings are a record of
these three integers, each of which may be left out.
-/

namespace Spintax

structure Settings where
  /-- How many steps can be undone; zero for any number. -/
  historyLimit : Nat
  /-- Counts above this are reported as overflow. -/
  variationCeiling : UInt64
  maxDepth : Nat
deriving DecidableEq

namespace Settings

/-- The settings unless something else is said. -/
def default : Settings :=
  ⟨History.defaultLimit, defaultCeiling, defaultMaxDepth⟩

def read (c : Settings) (text : List Char) : Reading :=
  Reading.ofText c.maxDepth text

def count (c : Settings) (n : Node) : VariationCount :=
  n.variations c.variationCeiling

/-! ## Settings in JSON -/

def toJson (c : Settings) : Json :=
  .object [("historyLimit", .natural c.historyLimit),
    ("variationCeiling", .natural c.variationCeiling.toNat), ("maxDepth", .natural c.maxDepth)]

/-- The settings that a value describes; what it leaves out is as by default. -/
def ofJson? (v : Json) : Option Settings := do
  let [limit, ceiling, depth] ←
    v.record? ["historyLimit", "variationCeiling", "maxDepth"] | none
  let word := fun (n : Nat) => Json.orDefault (fun v => v.word?.map UInt64.toNat) n
  return {
    historyLimit := ← word default.historyLimit limit
    variationCeiling := ← Json.orDefault Json.word? default.variationCeiling ceiling
    maxDepth := ← word default.maxDepth depth
  }

end Settings

end Spintax
