import Spintax.Json.Record
import Spintax.Node

/-!
# Spintax — counting variations

A text has one rendering, a sequence as many as the product over its nodes,
a choice as many as the sum over its options, and a choice without options
one. Counts are 64-bit words and stop at a ceiling: as soon as a partial sum
or product passes it, the count of the whole is `overflow`.

* `VariationCount` — a count, or that the ceiling was passed;
* `withinCeiling` — the check that every sum and every product passes;
* `Node.countWithin?`, `Node.variations` — the count of a tree;
* `VariationCount.toJson`, `VariationCount.ofJson?` — counts in JSON.
-/

namespace Spintax

/-- How many renderings a tree has. -/
inductive VariationCount where
  | finite (n : UInt64)
  /-- More than the ceiling. -/
  | overflow
deriving DecidableEq

namespace VariationCount

/-- The count as it is shown. -/
def display : VariationCount → String
  | .finite n => Text.decimal n.toNat
  | .overflow => "overflow"

def isOverflow : VariationCount → Bool
  | .finite _ => false
  | .overflow => true

def finite? : VariationCount → Option UInt64
  | .finite n => some n
  | .overflow => none

end VariationCount

/-- The ceiling unless something else is said. -/
def defaultCeiling : UInt64 := 1000000

/-- The ceiling that counting goes by: any tree has a rendering, so it is at
least one. -/
def effectiveCeiling (ceiling : UInt64) : UInt64 :=
  if ceiling = 0 then 1 else ceiling

/-- A checked result, unless it passes the ceiling. -/
def withinCeiling (ceiling : UInt64) (result : Option UInt64) : Option UInt64 :=
  result.filter fun k => k ≤ ceiling

namespace Node

mutual

/-- The number of renderings, unless a partial result passes the ceiling. -/
def countWithin? (ceiling : UInt64) : Node → Option UInt64
  | .text _ => some 1
  | .option _ children => productWithin? ceiling children 1
  | .choice [] => some 1
  | .choice (n :: ns) => sumWithin? ceiling (n :: ns) 0
  | .root children => productWithin? ceiling children 1

/-- The counts of a sequence multiplied onto `total`, from left to right. -/
def productWithin? (ceiling : UInt64) : List Node → UInt64 → Option UInt64
  | [], total => some total
  | n :: ns, total =>
    match countWithin? ceiling n with
    | none => none
    | some k =>
      match withinCeiling ceiling (Text.toWord? (total.toNat * k.toNat)) with
      | none => none
      | some total => productWithin? ceiling ns total

/-- The counts of alternatives added to `total`, from left to right. -/
def sumWithin? (ceiling : UInt64) : List Node → UInt64 → Option UInt64
  | [], total => some total
  | n :: ns, total =>
    match countWithin? ceiling n with
    | none => none
    | some k =>
      match withinCeiling ceiling (Text.toWord? (total.toNat + k.toNat)) with
      | none => none
      | some total => sumWithin? ceiling ns total

end

/-- The number of renderings up to a ceiling, which counts as one if it is zero. -/
def variations (ceiling : UInt64) (n : Node) : VariationCount :=
  match countWithin? (effectiveCeiling ceiling) n with
  | some k => .finite k
  | none => .overflow

end Node

/-! ## Counts in JSON -/

namespace VariationCount

/-- A count as an object with the one field `finite`, overflow as a word. -/
def toJson : VariationCount → Json
  | .finite n => .object [("finite", .natural n.toNat)]
  | .overflow => .string "overflow"

/-- The count that a value describes; overflow may also be a field without a value. -/
def ofJson? : Json → Option VariationCount
  | .string "overflow" => some .overflow
  | .object [("overflow", .null)] => some .overflow
  | .object [("finite", v)] => v.word?.map .finite
  | _ => none

end VariationCount

/-! ## Small laws -/

/-- Counting goes by the ceiling or by one, whichever is larger. -/
theorem toNat_effectiveCeiling (c : UInt64) : (effectiveCeiling c).toNat = max c.toNat 1 := by
  unfold effectiveCeiling
  split
  · next h => simp [h]
  · next h =>
    have : c.toNat ≠ 0 := fun h0 => h (UInt64.toNat_inj.mp h0)
    omega

/-- A checked result is kept exactly when it does not pass the ceiling, and then
it is the true sum or product. -/
theorem withinCeiling_toWord?_eq_some_iff {c k : UInt64} {m : Nat} :
    withinCeiling c (Text.toWord? m) = some k ↔ k.toNat = m ∧ k.toNat ≤ c.toNat := by
  rw [withinCeiling, Option.filter_eq_some_iff, Text.toWord?_eq_some_iff, decide_eq_true_iff,
    UInt64.le_iff_toNat_le]

end Spintax
