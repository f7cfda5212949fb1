import Spintax.Node
import Spintax.Text.Numeral

/-!
# Spintax — the child rules

A tree is well formed when every child is of a kind its parent accepts. Trees
that come from outside are checked by `Node.firstViolation?`, which walks the
tree in preorder and names the first child out of place together with the
positions that lead to it.
-/

namespace Spintax

/-- A child that its parent does not accept. -/
structure Violation where
  parent : Kind
  child : Kind
  /-- The positions from the tree's top down to the child. -/
  place : List Nat
deriving DecidableEq

namespace Violation

def message (v : Violation) : String :=
  s!"{v.child.label} cannot be a child of {v.parent.label} (at child path [" ++
    ", ".intercalate (v.place.map Text.decimal) ++ "])"

/-- The same violation, seen from the parent of the tree it was found in. -/
def below (i : Nat) (v : Violation) : Violation :=
  { v with place := i :: v.place }

end Violation

namespace Node

mutual

/-- The first violation of the child rules in preorder, if there is one. -/
def firstViolation? : Node → Option Violation
  | .text _ => none
  | .option _ children => firstViolationFrom? .option 0 children
  | .choice children => firstViolationFrom? .choice 0 children
  | .root children => firstViolationFrom? .root 0 children

/-- The first violation among the children of a node of kind `parent`, of
which those before position `i` have been passed. -/
def firstViolationFrom? (parent : Kind) (i : Nat) : List Node → Option Violation
  | [] => none
  | n :: ns =>
    if parent.accepts n.kind then
      -- everything below a child comes before the next child
      match firstViolation? n with
      | some v => some (v.below i)
      | none => firstViolationFrom? parent (i + 1) ns
    else
      some ⟨parent, n.kind, [i]⟩

end

mutual

/-- Every parent accepts each of its children. -/
def WellFormed : Node → Prop
  | .text _ => True
  | .option _ children => AllAccepted .option children
  | .choice children => AllAccepted .choice children
  | .root children => AllAccepted .root children

/-- The listed nodes may stand below a node of kind `parent`, and each of
them is well formed. -/
def AllAccepted (parent : Kind) : List Node → Prop
  | [] => True
  | n :: ns => parent.accepts n.kind = true ∧ WellFormed n ∧ AllAccepted parent ns

end

end Node

end Spintax
