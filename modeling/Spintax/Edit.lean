import Spintax.Node.WellFormed
import Spintax.Path

/-!
# Spintax — edits

Edits take a tree and give a new one; where an edit is refused, the tree that
the caller has is the tree that remains.

* Every parent goes on accepting its children.
* The root can be replaced, but only by a root; it cannot be deleted.
* A node is inserted at a position no further than the end.
* Moving a node past either end of its siblings changes nothing.

`update`, `delete`, `insert` and `move` are the edits. A `Mutation` is an edit
as data: `Mutation.check` predicts whether it is accepted, `Mutation.apply`
checks it and then performs it.
-/

namespace Spintax

/-- Why an edit is refused. -/
inductive EditError where
  /-- The path leads nowhere. -/
  | notFound (path : Path)
  | invalidPath (error : PathError)
  | cannotDeleteRoot
  | cannotInsertRoot
  /-- The root would be replaced by a node of another kind. -/
  | rootReplacement (kind : Kind)
  | notAContainer (path : Path)
  | indexOutOfRange (index : UInt64) (length : Nat)
  /-- The parent does not accept such a child. -/
  | invalidChild (parent child : Kind)
  /-- The new node is not well formed itself. -/
  | invalidStructure (violation : Violation)
  /-- The updater gave no node. -/
  | aborted
deriving DecidableEq

def EditError.message : EditError → String
  | .notFound path => "Node not found: " ++ path.display
  | .invalidPath error => "Invalid path: " ++ error.message
  | .cannotDeleteRoot => "Cannot delete the root"
  | .cannotInsertRoot => "Cannot insert at the root position"
  | .rootReplacement kind => "The root can only be replaced by a root, not a " ++ kind.label
  | .notAContainer path => "Node at " ++ path.display ++ " has no children"
  | .indexOutOfRange index length =>
    "Index " ++ Text.decimal index.toNat ++ " out of range for " ++ Text.decimal length ++
      " children"
  | .invalidChild parent child => child.label ++ " cannot be a child of " ++ parent.label
  | .invalidStructure violation => "Invalid structure: " ++ violation.message
  | .aborted => "Update aborted"

/-- What an accepted edit does to a tree. -/
inductive Outcome where
  /-- Nothing was to be done. -/
  | unchanged
  /-- The tree is replaced by a new one, which may be equal to it. -/
  | changed (root : Node)
deriving DecidableEq

namespace Outcome

/-- The tree after an edit of `before`. -/
def tree (before : Node) : Outcome → Node
  | .unchanged => before
  | .changed root => root

def isChanged : Outcome → Bool
  | .unchanged => false
  | .changed _ => true

end Outcome

namespace Edit

/-! ## Rebuilding -/

/-- The node with other children, where a text has nowhere to put them. -/
def withChildren (place : Path) (n : Node) (children : List Node) : Except EditError Node :=
  match n.withChildren? children with
  | some m => .ok m
  | none => .error (.notAContainer place)

/-- The tree with the children of the node at the given positions changed by
`edit`, which sees the node's kind. Only the nodes on the way are rebuilt.
`place` is the path that refusals speak of. -/
def atChildren (place : Path) (edit : Kind → List Node → Except EditError (List Node)) :
    List UInt64 → Node → Except EditError Node
  | [], n =>
    match n.children? with
    | none => .error (.notAContainer place)
    | some children =>
      match edit n.kind children with
      | .ok children => withChildren place n children
      | .error e => .error e
  | i :: is, n =>
    match n.children? with
    | none => .error (.notFound place)
    | some children =>
      match children[i.toNat]? with
      | none => .error (.notFound place)
      | some c =>
        match atChildren place edit is c with
        | .ok c => withChildren place n (children.set i.toNat c)
        | .error e => .error e

/-- Puts a node in the place of the one at position `i`. -/
def replaceChild (i : UInt64) (new : Node) (parent : Kind) (children : List Node) :
    Except EditError (List Node) :=
  if parent.accepts new.kind then
    if i.toNat < children.length then .ok (children.set i.toNat new)
    else .error (.indexOutOfRange i children.length)
  else .error (.invalidChild parent new.kind)

/-- Takes the node at position `i` out. -/
def eraseChild (i : UInt64) (_parent : Kind) (children : List Node) :
    Except EditError (List Node) :=
  if i.toNat < children.length then .ok (children.eraseIdx i.toNat)
  else .error (.indexOutOfRange i children.length)

/-- Puts a node at position `i`, or at the end if there are fewer. -/
def insertChild (i : Nat) (new : Node) (parent : Kind) (children : List Node) :
    Except EditError (List Node) :=
  if parent.accepts new.kind then .ok (children.insertIdx (min i children.length) new)
  else .error (.invalidChild parent new.kind)

/-- Takes the node at position `i` out and puts it back at position `j`. -/
def moveChild (i : UInt64) (j : Nat) (n : Node) (parent : Kind) (children : List Node) :
    Except EditError (List Node) :=
  match eraseChild i parent children with
  | .ok others => insertChild j n parent others
  | .error e => .error e

/-! ## The edits -/

/-- Replaces the node at a path by what `updater` makes of it. The updater is
asked first, with nothing if the path leads nowhere; if it gives no node, the
update is aborted whatever else is wrong. -/
def updateWith (root : Node) (path : Path) (updater : Option Node → Option Node) :
    Except EditError Node :=
  match updater (path.resolve? root) with
  -- an updater that gives nothing decides before the path is looked at
  | none => .error .aborted
  | some new =>
    match path.indices with
    | .error e => .error (.invalidPath e)
    | .ok is =>
      if (root.descend? is).isNone then .error (.notFound path)
      else
        match new.firstViolation? with
        | some violation => .error (.invalidStructure violation)
        | none =>
          match is.getLast? with
          -- without positions the path is that of the root
          | none => if new.isRoot then .ok new else .error (.rootReplacement new.kind)
          | some i => atChildren (.ofIndices is.dropLast) (replaceChild i new) is.dropLast root

def update (root : Node) (path : Path) (new : Node) : Except EditError Node :=
  updateWith root path fun _ => some new

/-- Deletes the node at a path. A path of at most one segment stands for the
root. -/
def delete (root : Node) (path : Path) : Except EditError Node :=
  if path.segments.length ≤ 1 then .error .cannotDeleteRoot
  else
    match path.indices with
    | .error e => .error (.invalidPath e)
    | .ok is =>
      match is.getLast? with
      | none => .error .cannotDeleteRoot
      | some i => atChildren (.ofIndices is.dropLast) (eraseChild i) is.dropLast root

/-- Inserts a node so that it comes to stand at a path, or after the last of
the parent's children if there are fewer. -/
def insert (root : Node) (path : Path) (new : Node) : Except EditError Node :=
  match new.firstViolation? with
  | some violation => .error (.invalidStructure violation)
  | none =>
    match path.indices with
    | .error e => .error (.invalidPath e)
    | .ok is =>
      match is.getLast? with
      | none => .error .cannotInsertRoot
      | some i =>
        atChildren (.ofIndices is.dropLast) (insertChild i.toNat new) is.dropLast root

/-- The two ways to move among siblings. -/
inductive Direction where
  | up
  | down
deriving DecidableEq

/-- The position next to `i` among so many siblings, unless `i` is at the end. -/
def Direction.target? (i : UInt64) (siblings : Nat) : Direction → Option UInt64
  | .up => if i = 0 then none else some (i - 1)
  | .down => if (i + 1).toNat < siblings then some (i + 1) else none

/-- Exchanges the node at a path with its neighbour. At either end of its
siblings, and for the root, nothing is done. -/
def move (root : Node) (path : Path) (direction : Direction) : Except EditError Outcome :=
  match path.indices with
  | .error e => .error (.invalidPath e)
  | .ok is =>
    match is.getLast? with
    | none => .ok .unchanged
    | some i =>
      match root.descend? is with
      | none => .error (.notFound path)
      | some n =>
        let siblings := ((root.descend? is.dropLast).bind (·.children?)).getD []
        match direction.target? i siblings.length with
        | none => .ok .unchanged
        | some j =>
          -- `j` counts among the siblings that are left when the node is taken out
          match atChildren (.ofIndices is.dropLast) (moveChild i j.toNat n) is.dropLast root with
          | .ok root => .ok (.changed root)
          | .error e => .error e

end Edit

/-! ## Edits as data -/

/-- An edit of a tree. -/
inductive Mutation where
  | update (path : Path) (node : Node)
  | delete (path : Path)
  | insert (path : Path) (node : Node)
  | moveUp (path : Path)
  | moveDown (path : Path)
deriving DecidableEq

namespace Mutation

def name : Mutation → String
  | .update _ _ => "update"
  | .delete _ => "delete"
  | .insert _ _ => "insert"
  | .moveUp _ => "moveUp"
  | .moveDown _ => "moveDown"

/-- The path that the edit is about. -/
def path : Mutation → Path
  | .update path _ => path
  | .delete path => path
  | .insert path _ => path
  | .moveUp path => path
  | .moveDown path => path

/-- Refuses a node that is not well formed. -/
def checkNode (n : Node) : Except EditError Unit :=
  match n.firstViolation? with
  | some violation => .error (.invalidStructure violation)
  | none => .ok ()

/-- Refuses positions that lead nowhere, in the name of `path`. -/
def checkFound (root : Node) (is : List UInt64) (path : Path) : Except EditError Unit :=
  if (root.descend? is).isSome then .ok () else .error (.notFound path)

/-- Checks an edit against a tree without building anything. -/
def check (root : Node) (m : Mutation) : Except EditError Unit :=
  match m.path.indices with
  | .error e => .error (.invalidPath e)
  | .ok is =>
    match m with
    | .update path node => do
      checkNode node
      if is.isEmpty && !node.isRoot then .error (.rootReplacement node.kind)
      checkFound root is path
    | .delete path =>
      if is.isEmpty then .error .cannotDeleteRoot else checkFound root is path
    | .insert path node => do
      checkNode node
      if is.isEmpty then .error .cannotInsertRoot
      checkFound root is.dropLast path
    | .moveUp path => checkFound root is path
    | .moveDown path => checkFound root is path

def perform (root : Node) : Mutation → Except EditError Outcome
  | .update path node => (Edit.update root path node).map .changed
  | .delete path => (Edit.delete root path).map .changed
  | .insert path node => (Edit.insert root path node).map .changed
  | .moveUp path => Edit.move root path .up
  | .moveDown path => Edit.move root path .down

def apply (root : Node) (m : Mutation) : Except EditError Outcome :=
  match m.check root with
  | .ok _ => m.perform root
  | .error e => .error e

end Mutation

/-! ## Small laws -/

namespace Edit.Direction

variable {i j : UInt64} {siblings : Nat}

/-- Upwards the neighbour stands in the position before. -/
theorem target?_up_eq_some_iff : up.target? i siblings = some j ↔ j.toNat + 1 = i.toNat := by
  -- the difference of words is that of numbers, where there is something to take away from
  have hSub : i ≠ 0 → (i - 1).toNat + 1 = i.toNat := by
    intro hne
    have hPos : 0 < i.toNat := Nat.pos_of_ne_zero fun h => hne (UInt64.toNat_inj.mp h)
    have hLe : 1 ≤ i := UInt64.le_iff_toNat_le.mpr hPos
    rw [UInt64.toNat_sub_of_le i 1 hLe]
    exact Nat.sub_add_cancel hPos
  simp only [target?, Option.ite_none_left_eq_some, Option.some.injEq]
  constructor
  · rintro ⟨hne, rfl⟩
    exact hSub hne
  · intro hj
    have hne : i ≠ 0 := by
      rintro rfl
      exact absurd hj (by simp)
    have hEq := hSub hne
    exact ⟨hne, UInt64.toNat_inj.mp (by omega)⟩

/-- Downwards it stands in the position behind, if there is such a sibling. The
sum is one of words. -/
theorem target?_down_eq_some_iff :
    down.target? i siblings = some j ↔ i + 1 = j ∧ j.toNat < siblings := by
  simp only [target?, Option.ite_none_right_eq_some, Option.some.injEq]
  constructor
  · rintro ⟨hlt, rfl⟩
    exact ⟨rfl, hlt⟩
  · rintro ⟨rfl, hlt⟩
    exact ⟨hlt, rfl⟩

end Edit.Direction

end Spintax
