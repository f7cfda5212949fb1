import Spintax.Reading

/-!
# Spintax — reading in one pass

A second way to the tree of a text, without limit on its depth: one pass over
the tokens, with the choices that are open on a stack. Nothing is read twice and
no boundary is looked for ahead.

* Pairs, lone backslashes and plain characters extend the text at hand.
* An opening brace that is not the last token opens a choice with one option; a
  bar goes on to the next option of the innermost open choice, a closing brace
  closes it. With no choice open, both are text.
* The end closes all choices.

An option is trimmed when it ends, as a whole: at its two ends, where they are
text. A text that then comes first is its beginning, and later texts of nothing
but blanks are left out.
-/

namespace Spintax

namespace OnePass

/-- A choice that is open: the nodes before it in its own sequence, last
first, and its options that have ended, last first. -/
structure OpenChoice where
  before : List Node
  options : List Node

/-- The open choices, innermost first, and the nodes of the sequence at hand,
last first. -/
structure State where
  choices : List OpenChoice
  nodes : List Node

/-- Text at the end of a sequence whose nodes stand last first. -/
def addText (s : List Char) : List Node → List Node
  | .text t :: ns => .text (t ++ s) :: ns
  | ns => .text s :: ns

/-- A sequence with its first node trimmed by `trim` if that is a text; of one
that is all blank nothing is left. -/
def trimFirst (trim : List Char → List Char) : List Node → List Node
  | .text s :: ns => if Text.allBlank s then ns else .text (trim s) :: ns
  | ns => ns

/-- The option of a sequence whose nodes stand last first. -/
def endOption (nodes : List Node) : Node :=
  match trimFirst Text.trimStart (trimFirst Text.trimEnd nodes).reverse with
  | .text s :: ns => .option s (ns.filter fun n => !n.isBlankText)
  | ns => .option [] (ns.filter fun n => !n.isBlankText)

/-- The choice at hand ends, and its sequence goes on. -/
def closeChoice (c : OpenChoice) (nodes : List Node) : List Node :=
  .choice (endOption nodes :: c.options).reverse :: c.before

/-- One token, of which `isLast` says whether others follow. -/
def step (st : State) (t : Token) (isLast : Bool) : State :=
  match t, st.choices with
  | .opening, choices =>
    -- nothing can follow a brace at the very end, so it is text
    if isLast then { st with nodes := addText t.spelling st.nodes }
    else ⟨⟨st.nodes, []⟩ :: choices, []⟩
  | .bar, c :: choices => ⟨{ c with options := endOption st.nodes :: c.options } :: choices, []⟩
  | .closing, c :: choices => ⟨choices, closeChoice c st.nodes⟩
  | _, _ => { st with nodes := addText t.spelling st.nodes }

/-- The tokens of a text, one after the other. -/
def scan (st : State) : List Token → State
  | [] => st
  | t :: ts => scan (step st t ts.isEmpty) ts

/-- The end of the text closes the open choices, innermost first. -/
def finish : List OpenChoice → List Node → List Node
  | [], nodes => nodes.reverse
  | c :: choices, nodes => finish choices (closeChoice c nodes)

/-- The tree of a text as it stands. -/
def rootOfNormal (s : List Char) : Node :=
  let st := scan ⟨[], []⟩ (Token.ofText s)
  .root (finish st.choices st.nodes)

end OnePass

end Spintax
