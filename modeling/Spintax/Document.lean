import Spintax.Edit
import Spintax.Node.Source
import Spintax.Settings

/-!
# Spintax — documents

A document is a tree under edit: its history, the source text and the count of
renderings that go with the tree, and the diagnostics of the last text that
was read into it. Every change records the tree it replaces and raises the
version by one; a refused edit leaves the document as it was.

`Operation` lists all that can be done to a document, `Document.perform` does
it, and `Document.run` does one after the other.
-/

namespace Spintax

/-- A tree under edit. -/
structure Document where
  /-- How often the tree was replaced, by changes, undoing and redoing. -/
  version : UInt64
  tree : Node
  history : History
  settings : Settings
  source : List Char
  variations : VariationCount
  /-- The repairs of the text last read; undoing, redoing and clearing forget them. -/
  diagnostics : List Diagnostic
deriving DecidableEq

/-- What an accepted edit did to a document. -/
structure EditResult where
  version : UInt64
  changed : Bool
deriving DecidableEq

namespace Document

def ofTree (tree : Node) (settings : Settings) : Document where
  version := 0
  tree := tree
  history := .empty settings.historyLimit
  settings := settings
  source := tree.source
  variations := settings.count tree
  diagnostics := []

def empty (settings : Settings) : Document :=
  ofTree (.root []) settings

def ofText (text : List Char) (settings : Settings) : Document :=
  { ofTree (settings.read text).root settings with
    diagnostics := (settings.read text).diagnostics }

/-- The document with another tree, and what goes with it. -/
def withTree (d : Document) (tree : Node) : Document :=
  { d with
    version := d.version + 1
    tree := tree
    source := tree.source
    variations := d.settings.count tree }

/-- Takes on the outcome of an edit; a change is recorded under its description. -/
def commit (d : Document) (description : String) : Outcome → EditResult × Document
  | .unchanged => (⟨d.version, false⟩, d)
  | .changed root =>
    (⟨d.version + 1, true⟩,
      { d.withTree root with history := d.history.record d.tree (some description) })

/-- Takes on an edit if it was accepted. -/
def commitIfOk (d : Document) (description : String) :
    Except EditError Outcome → Except EditError EditResult × Document
  | .ok outcome =>
    let (result, d) := d.commit description outcome
    (.ok result, d)
  | .error e => (.error e, d)

/-! ## Edits -/

/-- Checks a mutation and performs it. -/
def apply (d : Document) (m : Mutation) : Except EditError EditResult × Document :=
  d.commitIfOk m.name (m.apply d.tree)

/-- Replaces the node at a path by what the updater makes of it. -/
def updateWith (d : Document) (path : Path) (updater : Option Node → Option Node) :
    Except EditError EditResult × Document :=
  d.commitIfOk "update" ((Edit.updateWith d.tree path updater).map .changed)

def update (d : Document) (path : Path) (node : Node) :
    Except EditError EditResult × Document :=
  d.commitIfOk "update" ((Edit.update d.tree path node).map .changed)

def insert (d : Document) (path : Path) (node : Node) :
    Except EditError EditResult × Document :=
  d.commitIfOk "insert" ((Edit.insert d.tree path node).map .changed)

def delete (d : Document) (path : Path) : Except EditError EditResult × Document :=
  d.commitIfOk "delete" ((Edit.delete d.tree path).map .changed)

/-- Exchanges the node at a path with the sibling before it. -/
def moveUp (d : Document) (path : Path) : Except EditError EditResult × Document :=
  d.commitIfOk "moveUp" (Edit.move d.tree path .up)

/-- Exchanges the node at a path with the sibling after it. -/
def moveDown (d : Document) (path : Path) : Except EditError EditResult × Document :=
  d.commitIfOk "moveDown" (Edit.move d.tree path .down)

/-- Reads another text, as a single change. -/
def replaceSource (d : Document) (text : List Char) : EditResult × Document :=
  let reading := d.settings.read text
  -- the diagnostics are those of the new text even if the tree stays the same
  { d with diagnostics := reading.diagnostics }.commit "replaceSource" (.changed reading.root)

def clearAll (d : Document) : EditResult × Document :=
  { d with diagnostics := [] }.commit "clearAll" (.changed (.root []))

/-! ## History -/

/-- Makes one step of the changes to come. -/
def beginBatch (d : Document) (description : String) : Document :=
  { d with history := d.history.beginBatch.describeBatch description }

def endBatch (d : Document) : Document :=
  { d with history := d.history.endBatch }

/-- Takes on what a step in the history gave back, and says whether it gave
anything. -/
def restore (d : Document) : Option Node × History → Bool × Document
  | (none, history) => (false, { d with history })
  | (some tree, history) => (true, { d.withTree tree with history, diagnostics := [] })

/-- Takes the last change back. -/
def undo (d : Document) : Bool × Document :=
  d.restore (d.history.undo d.tree)

/-- Makes the change last taken back again. -/
def redo (d : Document) : Bool × Document :=
  d.restore (d.history.redo d.tree)

end Document

/-! ## Runs -/

/-- What can be done to a document. -/
inductive Operation where
  | apply (mutation : Mutation)
  | update (path : Path) (node : Node)
  | updateWith (path : Path) (updater : Option Node → Option Node)
  | insert (path : Path) (node : Node)
  | delete (path : Path)
  | moveUp (path : Path)
  | moveDown (path : Path)
  | replaceSource (text : List Char)
  | clearAll
  | beginBatch (description : String)
  | endBatch
  | undo
  | redo

/-- What an operation answers. -/
inductive Answer where
  /-- An edit was accepted or refused. -/
  | edited (result : Except EditError EditResult)
  /-- A step in the history was made or not. -/
  | stepped (done : Bool)
  /-- There is nothing to say. -/
  | done

namespace Document

/-- Does what an operation says. -/
def perform (d : Document) : Operation → Answer × Document
  | .apply mutation => (d.apply mutation).map .edited id
  | .update path node => (d.update path node).map .edited id
  | .updateWith path updater => (d.updateWith path updater).map .edited id
  | .insert path node => (d.insert path node).map .edited id
  | .delete path => (d.delete path).map .edited id
  | .moveUp path => (d.moveUp path).map .edited id
  | .moveDown path => (d.moveDown path).map .edited id
  | .replaceSource text => (d.replaceSource text).map (.edited ∘ .ok) id
  | .clearAll => d.clearAll.map (.edited ∘ .ok) id
  | .beginBatch description => (.done, d.beginBatch description)
  | .endBatch => (.done, d.endBatch)
  | .undo => d.undo.map .stepped id
  | .redo => d.redo.map .stepped id

def run (d : Document) (ops : List Operation) : Document :=
  ops.foldl (fun d op => (d.perform op).2) d

end Document

end Spintax
