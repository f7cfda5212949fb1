import Spintax.Lexeme
import Spintax.Node.WellFormed

/-!
# Spintax — canonical trees

Many trees have the same source text; reading gives back one of them. A *tidy*
tree has the shape in which reading leaves trees: texts joined, options and the
root trimmed, nothing empty that need not be. A tree is *quoted* when its
literals hold no brace or bar that reading would take for structure. Trees that
are both, and well formed, are *canonical*: their source text stands for them
and for no other.
-/

namespace Spintax

namespace Text

def startsBlank (s : List Char) : Bool :=
  s.head?.any isBlank

def endsBlank (s : List Char) : Bool :=
  s.getLast?.any isBlank

def isOneLine (s : List Char) : Bool :=
  s.all fun c => c != '\r' && c != '\n'

/-- Whether a literal reads as itself: every backslash has a character after it
that is no blank, and braces stand only after a backslash. Inside an option the
same goes for bars. -/
def isQuoted (inOption : Bool) (s : List Char) : Bool :=
  (Token.ofText s).all fun
    | .plain _ => true
    | .pair c => !isBlank c
    | .bar => !inOption
    | _ => false

end Text

namespace Node

mutual

/-- How many choices stand inside one another. -/
def choiceDepth : Node → Nat
  | .text _ => 0
  | .option _ children => choiceDepthAll children
  | .choice children => choiceDepthAll children + 1
  | .root children => choiceDepthAll children

def choiceDepthAll : List Node → Nat
  | [] => 0
  | n :: ns => max (choiceDepth n) (choiceDepthAll ns)

end

/-! ## Tidy trees -/

/-- The literal of a text. -/
def text? : Node → Option (List Char)
  | .text s => some s
  | _ => none

/-- A sequence without empty texts and without two texts side by side. -/
def isJoined : List Node → Bool
  | [] => true
  | .text _ :: .text _ :: _ => false
  | .text s :: ns => !s.isEmpty && isJoined ns
  | _ :: ns => isJoined ns

/-- A sequence that does not end with a blank. -/
def isTrimmedEnd (ns : List Node) : Bool :=
  !(ns.getLast?.bind text?).any Text.endsBlank

/-- A sequence that neither begins nor ends with a blank. -/
def isTrimmed (ns : List Node) : Bool :=
  !(ns.head?.bind text?).any Text.startsBlank && isTrimmedEnd ns

/-- An option as reading leaves it: a trimmed literal alone, or a literal with
a choice after it, no text of blanks and no blank at the ends. -/
def isTidyOption (content : List Char) : List Node → Bool
  | [] => Text.trim content == content
  | n :: ns =>
    n.kind == .choice && !Text.startsBlank content && ns.all (fun m => !m.isBlankText) &&
      isTrimmedEnd (n :: ns)

mutual

/-- A tree in the shape in which reading leaves trees. -/
def isTidy : Node → Bool
  | .text content => Text.isOneLine content
  | .option content children =>
    Text.isOneLine content && isTidyOption content children && isJoined children &&
      isTidyAll children
  | .choice children => !children.isEmpty && isTidyAll children
  | .root children => isTrimmed children && isJoined children && isTidyAll children

def isTidyAll : List Node → Bool
  | [] => true
  | n :: ns => isTidy n && isTidyAll ns

end

/-! ## Canonical trees -/

mutual

/-- A tree whose literals read as themselves where they stand. -/
def isQuoted (inOption : Bool) : Node → Bool
  | .text content => Text.isQuoted inOption content
  | .option content children => Text.isQuoted true content && isQuotedAll true children
  | .choice children => isQuotedAll inOption children
  | .root children => isQuotedAll false children

def isQuotedAll (inOption : Bool) : List Node → Bool
  | [] => true
  | n :: ns => isQuoted inOption n && isQuotedAll inOption ns

end

/-- A root that is well formed, tidy and quoted. -/
def isCanonical (n : Node) : Bool :=
  n.isRoot && n.firstViolation?.isNone && n.isTidy && n.isQuoted false

end Node

end Spintax
