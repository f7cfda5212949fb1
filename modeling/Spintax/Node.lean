import Spintax.Text.Blank

/-!
# Spintax — trees

Spun text is a tree of four kinds of node: literal text, an option of a choice
(a literal beginning and the nodes after it), a choice between options, and
the root, a sequence. Which kind may hold which is said by `Kind.accepts`; it
is not built into the type, because trees also come from outside (see
`Spintax.Node.WellFormed`).

* `Kind`, `Node` — kinds and trees;
* `Node.children?`, `Node.withChildren?` — the list of children, which a text
  does not have;
* `Node.decEq` — equality of trees is decidable.
-/

namespace Spintax

/-- The four kinds of node. -/
inductive Kind where
  | text
  | option
  | choice
  | root
deriving DecidableEq

namespace Kind

/-- Whether a node of the first kind may hold a child of the second: choices
hold options and nothing else, options and the root hold texts and choices. -/
def accepts : Kind → Kind → Bool
  | .root, .text => true
  | .root, .choice => true
  | .option, .text => true
  | .option, .choice => true
  | .choice, .option => true
  | _, _ => false

/-- Every node but a text has a list of children. -/
def isContainer : Kind → Bool
  | .text => false
  | _ => true

def label : Kind → String
  | .text => "text"
  | .option => "option"
  | .choice => "choice"
  | .root => "root"

end Kind

/-- A tree of spun text. -/
inductive Node where
  /-- Literal text. -/
  | text (content : List Char)
  /-- One alternative of a choice: a literal beginning and what follows it. -/
  | option (content : List Char) (children : List Node)
  /-- Alternatives, one of which is rendered. -/
  | choice (children : List Node)
  /-- The whole text. -/
  | root (children : List Node)

namespace Node

instance : Inhabited Node := ⟨.root []⟩

def kind : Node → Kind
  | .text _ => .text
  | .option _ _ => .option
  | .choice _ => .choice
  | .root _ => .root

def isRoot (n : Node) : Bool :=
  n.kind == .root

/-- The literal of a text or an option. -/
def content? : Node → Option (List Char)
  | .text content => some content
  | .option content _ => some content
  | .choice _ => none
  | .root _ => none

/-- The children, which only a text lacks. -/
def children? : Node → Option (List Node)
  | .text _ => none
  | .option _ children => some children
  | .choice children => some children
  | .root children => some children

/-- The node with other children; a text has nowhere to put them. -/
def withChildren? (children : List Node) : Node → Option Node
  | .text _ => none
  | .option content _ => some (.option content children)
  | .choice _ => some (.choice children)
  | .root _ => some (.root children)

/-- Whether the node is a text of nothing but blanks. -/
def isBlankText : Node → Bool
  | .text s => Text.allBlank s
  | _ => false

def child? (n : Node) (i : Nat) : Option Node :=
  n.children?.bind (·[i]?)

/-! ## Equality -/

mutual

/-- Trees are compared node by node. -/
def decEq : (a b : Node) → Decidable (a = b)
  | .text s, .text t => decidable_of_iff (s = t) (by simp)
  | .option s as, .option t bs =>
    match decEqAll as bs with
    | isTrue h => decidable_of_iff (s = t) (by simp [h])
    | isFalse h => isFalse (by simp [h])
  | .choice as, .choice bs =>
    match decEqAll as bs with
    | isTrue h => isTrue (by simp [h])
    | isFalse h => isFalse (by simp [h])
  | .root as, .root bs =>
    match decEqAll as bs with
    | isTrue h => isTrue (by simp [h])
    | isFalse h => isFalse (by simp [h])
  | .text _, .option _ _ => isFalse nofun
  | .text _, .choice _ => isFalse nofun
  | .text _, .root _ => isFalse nofun
  | .option _ _, .text _ => isFalse nofun
  | .option _ _, .choice _ => isFalse nofun
  | .option _ _, .root _ => isFalse nofun
  | .choice _, .text _ => isFalse nofun
  | .choice _, .option _ _ => isFalse nofun
  | .choice _, .root _ => isFalse nofun
  | .root _, .text _ => isFalse nofun
  | .root _, .option _ _ => isFalse nofun
  | .root _, .choice _ => isFalse nofun

/-- Lists of trees, likewise. -/
def decEqAll : (as bs : List Node) → Decidable (as = bs)
  | [], [] => isTrue rfl
  | [], _ :: _ => isFalse nofun
  | _ :: _, [] => isFalse nofun
  | a :: as, b :: bs =>
    match decEq a b with
    | isTrue h =>
      match decEqAll as bs with
      | isTrue hs => isTrue (by rw [h, hs])
      | isFalse hs => isFalse (by simp [hs])
    | isFalse h => isFalse (by simp [h])

end

instance : DecidableEq Node := decEq

/-! ## Small laws -/

@[simp] theorem kind_text (s : List Char) : (text s).kind = .text := rfl
@[simp] theorem kind_option (s : List Char) (ns : List Node) : (option s ns).kind = .option := rfl
@[simp] theorem kind_choice (ns : List Node) : (choice ns).kind = .choice := rfl
@[simp] theorem kind_root (ns : List Node) : (root ns).kind = .root := rfl

theorem isContainer_kind (n : Node) : n.kind.isContainer = n.children?.isSome := by
  cases n <;> rfl

theorem withChildren?_isSome (ns : List Node) (n : Node) :
    (n.withChildren? ns).isSome = n.kind.isContainer := by
  cases n <;> rfl

end Node

end Spintax
