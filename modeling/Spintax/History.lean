import Spintax.Node

/-!
# Spintax — undo and redo

A history holds whole trees: those that changes replaced (`past`) and those
that undoing took back (`future`), most recent first. Each side holds at most
`limit` snapshots, of which the oldest goes first; a limit of zero is no limit.

* A recorded change joins the past and empties the future.
* Undoing and redoing exchange the current tree with the most recent snapshot
  of one side; the current tree goes to the other side under the description
  of the snapshot.
* A batch makes one step of several changes: the first tree recorded in it
  stands for all.
-/

namespace Spintax

/-- A tree as it was before a change, and what the change was. -/
structure Snapshot where
  tree : Node
  description : Option String
deriving DecidableEq

/-- A batch that is not yet closed: the tree before its first change, if
there was one, and what the batch is. -/
structure Batch where
  before : Option Node
  description : Option String
deriving DecidableEq

/-- The two sides of a history and the batch that is open, if any. -/
structure History where
  limit : Nat
  /-- What can be undone, most recent first. -/
  past : List Snapshot
  /-- What can be redone, most recent first. -/
  future : List Snapshot
  batch : Option Batch
deriving DecidableEq

namespace History

/-- How many snapshots a side holds unless something else is said. -/
def defaultLimit : Nat := 50

def empty (limit : Nat) : History :=
  ⟨limit, [], [], none⟩

/-- A snapshot on top of a side. If there are too many now, the oldest one goes. -/
def push (limit : Nat) (s : Snapshot) (side : List Snapshot) : List Snapshot :=
  let side := s :: side
  if 0 < limit ∧ limit < side.length then side.dropLast else side

/-- A change becomes past; what was undone before it is lost. -/
def remember (h : History) (s : Snapshot) : History :=
  { h with past := push h.limit s h.past, future := [] }

/-- Records the tree that a change replaced. In a batch, only the first tree
and the first description are kept. -/
def record (h : History) (before : Node) (description : Option String) : History :=
  match h.batch with
  | some b =>
    { h with batch := some ⟨b.before <|> some before, b.description <|> description⟩ }
  | none => h.remember ⟨before, description⟩

/-- Opens a batch; one that is already open goes on. -/
def beginBatch (h : History) : History :=
  match h.batch with
  | some _ => h
  | none => { h with batch := some ⟨none, none⟩ }

/-- Says what the open batch is, whatever was said before. -/
def describeBatch (h : History) (description : String) : History :=
  { h with batch := h.batch.map fun b => { b with description := some description } }

/-- Closes the batch. One in which nothing was recorded leaves no trace. -/
def endBatch (h : History) : History :=
  match h.batch with
  | some ⟨some before, description⟩ => { h with batch := none }.remember ⟨before, description⟩
  | _ => { h with batch := none }

/-- Steps back: the tree to restore, unless there is no past. The batch is
closed first. -/
def undo (h : History) (current : Node) : Option Node × History :=
  let h := h.endBatch
  -- only now is the past complete: the batch may just have joined it
  match h.past with
  | [] => (none, h)
  | s :: past =>
    (some s.tree,
      { h with past := past, future := push h.limit ⟨current, s.description⟩ h.future })

/-- Steps forward again: the tree to restore, unless nothing was undone. The
batch is closed first. -/
def redo (h : History) (current : Node) : Option Node × History :=
  let h := h.endBatch
  -- a batch in which something was recorded has just emptied the future
  match h.future with
  | [] => (none, h)
  | s :: future =>
    (some s.tree,
      { h with past := push h.limit ⟨current, s.description⟩ h.past, future := future })

/-- Forgets everything, an open batch included. -/
def clear (h : History) : History :=
  empty h.limit

/-- Whether there is a past. -/
def canUndo (h : History) : Bool :=
  !h.past.isEmpty

/-- Whether something was undone. -/
def canRedo (h : History) : Bool :=
  !h.future.isEmpty

/-- What the next undo takes back. -/
def undoDescription (h : History) : Option String :=
  h.past.head?.bind Snapshot.description

/-- What the next redo does again. -/
def redoDescription (h : History) : Option String :=
  h.future.head?.bind Snapshot.description

/-- The past, oldest first. -/
def snapshots (h : History) : List Snapshot :=
  h.past.reverse

/-! ## Small laws -/

/-- The snapshot that is pushed comes to lie on top, however small the limit. -/
theorem push_eq_cons (limit : Nat) (s : Snapshot) (side : List Snapshot) :
    push limit s side =
      s :: if 0 < limit ∧ limit ≤ side.length then side.dropLast else side := by
  simp only [push, List.length_cons, Nat.lt_succ_iff]
  split
  · next hFull =>
    -- there is an older snapshot, so it is not the new one that goes
    have hne : side ≠ [] := List.ne_nil_of_length_pos (Nat.lt_of_lt_of_le hFull.1 hFull.2)
    rw [List.dropLast_cons_of_ne_nil hne]
  · rfl

/-- A side that was within the limit still is. -/
theorem length_push_le {limit : Nat} (hLimit : limit ≠ 0) (s : Snapshot) {side : List Snapshot}
    (h : side.length ≤ limit) : (push limit s side).length ≤ limit := by
  rw [push_eq_cons, List.length_cons]
  split
  · rw [List.length_dropLast]
    omega
  · omega

end History

end Spintax
