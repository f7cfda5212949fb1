import Spintax.Proofs.Histories

/-!
# Spintax — a history is a bounded zipper

The two sides of a history are a zipper over the trees of a session, with the current
tree, which the caller holds, in the gap between them. A step moves the gap by one
place and loses nothing; only a recorded change cuts the zipper, at its far ends. What
makes the steps lossless is stated nowhere in them: each side is cut off on its own,
but both sides together are within the limit (`History.Bounded`). Every command keeps
that, so it holds of any history that can come about.

* `History.Command`, `History.run` — all that can be done to a history;
* `History.Bounded.perform`, `History.bounded_run_empty` — both sides stay within the
  limit together;
* `History.Bounded.redo_of_undo`, `History.Bounded.undo_of_redo` — a step that is made
  is taken back by the opposite one;
* `History.zipper_run` — the whole.
-/

namespace Spintax

namespace History

/-! ## Commands -/

/-- What can be done to a history. Which tree is current is up to the caller. -/
inductive Command where
  | record (before : Node) (description : Option String)
  | beginBatch
  | describeBatch (description : String)
  | endBatch
  | undo (current : Node)
  | redo (current : Node)
  | clear

/-- The history after a command. -/
def perform (h : History) : Command → History
  | .record before description => h.record before description
  | .beginBatch => h.beginBatch
  | .describeBatch description => h.describeBatch description
  | .endBatch => h.endBatch
  | .undo current => (h.undo current).2
  | .redo current => (h.redo current).2
  | .clear => h.clear

/-- The history after several commands. -/
def run (h : History) (commands : List Command) : History :=
  commands.foldl perform h

section Zipper

variable {limit : Nat} {h : History} {current t : Node}

/-! ## The limit -/

theorem Bounded.clear (hBound : h.Bounded limit) : h.clear.Bounded limit := by
  rw [History.clear, hBound.limit_eq]
  exact bounded_empty limit

/-- **A command keeps both sides together within the limit**, whatever tree the caller
says is current. -/
theorem Bounded.perform (hBound : h.Bounded limit) (command : Command) :
    (h.perform command).Bounded limit := by
  cases command with
  | record before description => exact hBound.record before description
  | beginBatch => exact hBound.beginBatch
  | describeBatch description => exact hBound.withBatch _
  | endBatch => exact hBound.endBatch
  | undo current => exact hBound.undo current
  | redo current => exact hBound.redo current
  | clear => exact hBound.clear

/-- **Whatever is done to a history keeps it within its limit.** -/
theorem Bounded.run (hBound : h.Bounded limit) (commands : List Command) :
    (h.run commands).Bounded limit := by
  induction commands generalizing h with
  | nil => exact hBound
  | cons command commands ih => exact ih (hBound.perform command)

/-- So does a run of commands that begins with nothing recorded. -/
theorem bounded_run_empty (limit : Nat) (commands : List Command) :
    ((empty limit).run commands).Bounded limit :=
  (bounded_empty limit).run commands

/-! ## Steps -/

/-- A step back that is made is taken back by a step forth. All that is left of it is
that the batch has been closed. -/
theorem Bounded.redo_of_undo (hBound : h.Bounded limit) (hUndo : (h.undo current).1 = some t) :
    (h.undo current).2.redo t = (some current, h.endBatch) := by
  have hBatch := batch_endBatch h
  -- a step closes the batch before it does anything else
  rw [← undo_endBatch] at hUndo ⊢
  cases hPast : h.endBatch.past with
  | nil =>
    rw [undo_of_past_eq_nil hBatch hPast] at hUndo
    exact absurd hUndo nofun
  | cons s past =>
    have hTree : (h.endBatch.undo current).1 = some s.tree := by
      rw [undo_of_past_eq_cons hBatch hBound.endBatch hPast]
    obtain rfl := Option.some.inj (hTree.symm.trans hUndo)
    exact redo_undo hBatch hBound.endBatch hPast current

/-- A step forth that is made is taken back by a step back. -/
theorem Bounded.undo_of_redo (hBound : h.Bounded limit) (hRedo : (h.redo current).1 = some t) :
    (h.redo current).2.undo t = (some current, h.endBatch) := by
  have hBatch := batch_endBatch h
  rw [← redo_endBatch] at hRedo ⊢
  cases hFuture : h.endBatch.future with
  | nil =>
    rw [redo_of_future_eq_nil hBatch hFuture] at hRedo
    exact absurd hRedo nofun
  | cons s future =>
    have hTree : (h.endBatch.redo current).1 = some s.tree := by
      rw [redo_of_future_eq_cons hBatch hBound.endBatch hFuture]
    obtain rfl := Option.some.inj (hTree.symm.trans hRedo)
    exact undo_redo hBatch hBound.endBatch hFuture current

/-! ## Recorded changes -/

/-- What a side keeps when one snapshot more comes on top: all of it, but without the
oldest one if it is full. -/
def makeRoom (limit : Nat) (side : List Snapshot) : List Snapshot :=
  if 0 < limit ∧ side.length = limit then side.dropLast else side

/-- A recorded change comes first in the past, which makes room for it, and empties the
future. -/
theorem Bounded.record_eq (hBound : h.Bounded limit) (hBatch : h.batch = none) (before : Node)
    (description : Option String) :
    h.record before description =
      { h with past := ⟨before, description⟩ :: makeRoom limit h.past, future := [] } := by
  have hRecord : h.record before description = h.remember ⟨before, description⟩ := by
    rw [History.record, hBatch]
  rw [hRecord]
  exact hBound.remember_eq _

/-- A batch that is closed does the same. -/
theorem Bounded.endBatch_eq (hBound : h.Bounded limit) {before : Node}
    {description : Option String} (hBatch : h.batch = some ⟨some before, description⟩) :
    h.endBatch =
      { h with
        past := ⟨before, description⟩ :: makeRoom limit h.past
        future := []
        batch := none } := by
  rw [endBatch_of_recorded hBatch]
  exact (hBound.withBatch none).remember_eq _

end Zipper

/-- **A history is a bounded zipper**, whatever was done to it.

* Both sides together are within the limit. Hence a step passes the most recent
  snapshot of one side to the other, and nothing goes there to make room for it.
* A step that is made is taken back by the opposite one: the tree that was current is
  current again, and both sides are what they were when the batch had been closed.
* A recorded change, or the end of a batch with a change in it, is one snapshot more in
  the past, which loses its oldest one if it is full, and the future is empty. -/
theorem zipper_run (limit : Nat) (commands : List Command) :
    let h := (empty limit).run commands
    (limit ≠ 0 → h.past.length + h.future.length ≤ limit) ∧
      (∀ current s past, h.endBatch.past = s :: past →
        h.undo current = (some s.tree,
          { h.endBatch with past, future := ⟨current, s.description⟩ :: h.endBatch.future })) ∧
      (∀ current s future, h.endBatch.future = s :: future →
        h.redo current = (some s.tree,
          { h.endBatch with past := ⟨current, s.description⟩ :: h.endBatch.past, future })) ∧
      (∀ current t, (h.undo current).1 = some t →
        (h.undo current).2.redo t = (some current, h.endBatch)) ∧
      (∀ current t, (h.redo current).1 = some t →
        (h.redo current).2.undo t = (some current, h.endBatch)) ∧
      (∀ before description, h.batch = none →
        h.record before description =
          { h with past := ⟨before, description⟩ :: makeRoom limit h.past, future := [] }) ∧
      ∀ before description, h.batch = some ⟨some before, description⟩ →
        h.endBatch =
          { h with
            past := ⟨before, description⟩ :: makeRoom limit h.past
            future := []
            batch := none } := by
  intro h
  have hBound : h.Bounded limit := bounded_run_empty limit commands
  refine ⟨hBound.total, fun current s past hPast => ?_, fun current s future hFuture => ?_,
    fun current t => hBound.redo_of_undo, fun current t => hBound.undo_of_redo,
    fun before description hBatch => hBound.record_eq hBatch before description,
    fun before description => hBound.endBatch_eq⟩
  · rw [← undo_endBatch]
    exact undo_of_past_eq_cons (batch_endBatch h) hBound.endBatch hPast current
  · rw [← redo_endBatch]
    exact redo_of_future_eq_cons (batch_endBatch h) hBound.endBatch hFuture current

/-- With room for one snapshot, one that is recorded while a batch is open: a step back
closes the batch, passes the snapshot on and is taken back by a step forth; another
change that is recorded then takes its place. -/
theorem zipper_run_of_limit_one :
    let h := (empty 1).run [.beginBatch, .record (.root []) none]
    (h.undo (.root [.choice []])).2.redo (.root []) = (some (.root [.choice []]), h.endBatch) ∧
      h.endBatch.record (.root [.choice []]) none =
        { h.endBatch with past := [⟨.root [.choice []], none⟩], future := [] } := by
  obtain ⟨-, -, -, hRedo, -⟩ := zipper_run 1 [.beginBatch, .record (.root []) none]
  obtain ⟨-, -, -, -, -, hRecord, -⟩ :=
    zipper_run 1 [.beginBatch, .record (.root []) none, .endBatch]
  exact ⟨hRedo (.root [.choice []]) (.root []) rfl, hRecord (.root [.choice []]) none rfl⟩

end History

end Spintax
