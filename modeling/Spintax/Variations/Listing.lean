import Spintax.Variations

/-!
# Spintax — listing variations

Every rendering of a tree, first options first: one entry for each way to pick
an option at every choice, so equal renderings that are reached in different
ways all stand in the list. A tree with more renderings than a limit is not
listed at all.
-/

namespace Spintax

namespace Node

mutual

def renderings : Node → List (List Char)
  | .text content => [content]
  | .option content children => continuations children [content]
  | .choice [] => [[]]
  | .choice (n :: ns) => alternatives (n :: ns)
  | .root children => continuations children [[]]

/-- Every beginning in `heads` continued by every rendering of a sequence. -/
def continuations : List Node → List (List Char) → List (List Char)
  | [], heads => heads
  | n :: ns, heads =>
    let tails := renderings n
    continuations ns (heads.flatMap fun head => tails.map (head ++ ·))

/-- The renderings of the options of a choice, one option after the other. -/
def alternatives : List Node → List (List Char)
  | [] => []
  | n :: ns => renderings n ++ alternatives ns

end

end Node

/-- Why a tree is not listed. -/
inductive ListingError where
  | tooMany (limit : UInt64)
deriving DecidableEq

def ListingError.message : ListingError → String
  | .tooMany limit =>
    "More than " ++ Text.decimal limit.toNat ++ " variations; refusing to enumerate"

/-- The renderings of a tree that has at most `limit` of them; a limit of zero
counts as one. -/
def Node.listing (limit : UInt64) (n : Node) : Except ListingError (List (List Char)) :=
  match n.variations limit with
  | .finite _ => .ok n.renderings
  | .overflow => .error (.tooMany (effectiveCeiling limit))

end Spintax
