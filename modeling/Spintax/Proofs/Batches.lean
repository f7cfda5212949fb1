import Spintax.Proofs.UndoRedo

/-!
# Spintax — a batch is one step

Between the ends of a batch the two sides of the history stay as they are, however
many changes there are. The batch itself keeps the tree it began with from the first
change on, and what was said last about what it is (`Document.Inside`). So closing it
either leaves no trace or leaves a single step, which is undone and redone as a whole.

* `Operation.staysInside` — the operations that leave a batch open;
* `Document.Inside` — a document within a batch;
* `Document.Inside.perform`, `Document.inside_run` — what one operation and what a run
  of operations keep of it;
* `Document.run_batch` — what a whole batch does to the history.
-/

namespace Spintax

/-! ## Operations within a batch -/

/-- Whether an operation leaves the open batch open; steps in the history close it. -/
def Operation.staysInside : Operation → Bool
  | .endBatch | .undo | .redo => false
  | _ => true

/-- What the open batch is after an operation, if it was `description` before it. -/
def Operation.redescribe (description : String) : Operation → String
  | .beginBatch description => description
  | _ => description

/-- What a batch that was begun as `description` is after a run of operations. -/
def lastDescription (description : String) (ops : List Operation) : String :=
  ops.foldl Operation.redescribe description

namespace Document

/-- `e` is what has become of `d` within a batch in which so many operations
reported a change. -/
inductive Inside (d : Document) (description : String) : Nat → Document → Prop
  | kept : Inside d description 0
      { d with history := { d.history with batch := some ⟨none, some description⟩ } }
  | changed {e : Document} (k : Nat)
      (hHistory : e.history =
        { d.history with batch := some ⟨some d.tree, some description⟩ }) :
      Inside d description (k + 1) e

section Inside

variable {d e : Document} {description : String} {k : Nat}

theorem inside_beginBatch (hBatch : d.history.batch = none) (description : String) :
    Inside d description 0 (d.beginBatch description) := by
  have hBegin : d.history.beginBatch = { d.history with batch := some ⟨none, none⟩ } := by
    rw [History.beginBatch, hBatch]
  rw [beginBatch, hBegin]
  exact .kept

/-- Beginning a batch again only says anew what it is. -/
theorem Inside.beginBatch (h : Inside d description k e) (said : String) :
    Inside d said k (e.beginBatch said) := by
  cases h with
  | kept => exact .kept
  | changed k hHistory =>
    refine .changed k ?_
    rw [Document.beginBatch, hHistory]
    rfl

/-- The batch goes back to the tree before its first change. -/
theorem Inside.change (h : Inside d description k e) (root : Node) (said : String)
    (diagnostics : List Diagnostic) :
    Inside d description (k + 1) (e.change root said diagnostics) := by
  refine .changed k ?_
  show e.history.record e.tree (some said) = _
  cases h with
  | kept => rfl
  | changed k hHistory =>
    rw [hHistory]
    rfl

/-- **An operation within a batch** leaves the sides of the history alone. -/
theorem Inside.perform (h : Inside d description k e) {op : Operation}
    (hOp : op.staysInside = true) :
    Inside d (op.redescribe description)
      (k + if (e.perform op).1.isChanged then 1 else 0) (e.perform op).2 := by
  by_cases hEdit : op.isEdit = true
  · -- an edit does not say what the batch is
    have hSaid : op.redescribe description = description := by
      cases op with
      | beginBatch => exact absurd hEdit Bool.false_ne_true
      | _ => rfl
    -- what an edit does to the document is a change that the batch takes in, or nothing
    have hStep := editStep_perform e hEdit
    rw [hSaid]
    generalize e.perform op = result at hStep ⊢
    obtain ⟨answer, e'⟩ := result
    cases hStep with
    | kept hAnswer =>
      rw [if_neg (by simp [hAnswer])]
      exact h
    | changed hAnswer root said diagnostics =>
      rw [if_pos hAnswer]
      exact h.change root said diagnostics
  · cases op with
    | beginBatch said => exact h.beginBatch said
    | endBatch | undo | redo => exact absurd hOp Bool.false_ne_true
    | _ => exact absurd rfl hEdit

/-- **So does a run of operations.** -/
theorem inside_run (h : Inside d description k e) {ops : List Operation}
    (hOps : ∀ op ∈ ops, op.staysInside = true) :
    Inside d (lastDescription description ops) (k + e.changes ops) (e.run ops) := by
  induction ops generalizing e description k with
  | nil => exact h
  | cons op ops ih =>
    rw [List.forall_mem_cons] at hOps
    have hRest := ih (h.perform hOps.1) hOps.2
    rw [changes_cons, Nat.add_comm ((e.perform op).2.changes ops), ← Nat.add_assoc]
    exact hRest

/-! ## The end of a batch -/

/-- A batch without changes leaves no trace. -/
theorem Inside.endBatch_eq (h : Inside d description 0 e) (hBatch : d.history.batch = none) :
    e.endBatch = d := by
  cases h
  obtain ⟨version, tree, ⟨limit, past, future, batch⟩, settings, source, variations, _⟩ := d
  obtain rfl : batch = none := hBatch
  rfl

/-- A batch with changes is remembered as one. -/
theorem Inside.history_endBatch (h : Inside d description (k + 1) e)
    (hBatch : d.history.batch = none) :
    e.endBatch.history = d.history.remember ⟨d.tree, some description⟩ := by
  cases h with
  | changed k hHistory =>
    have hRecorded : e.history.batch = some ⟨some d.tree, some description⟩ := by rw [hHistory]
    show e.history.endBatch = _
    rw [History.endBatch_of_recorded hRecorded, hHistory]
    show ({ d.history with batch := none } : History).remember _ = _
    rw [← hBatch]

theorem run_begin_end (d : Document) (description : String) (ops : List Operation) :
    d.run (.beginBatch description :: ops ++ [.endBatch]) =
      ((d.beginBatch description).run ops).endBatch := by
  rw [run, List.foldl_append]
  rfl

end Inside

/-- **A batch is one step or nothing.** If nothing was changed in it, the document is
as it was before; otherwise the past has one snapshot more, of the tree at the
beginning, and undoing and redoing go from one end of the batch to the other. -/
theorem run_batch {settings : Settings} {d e : Document} {description : String}
    {ops : List Operation} {k : Nat} (hReached : d.Reachable settings)
    (hBatch : d.history.batch = none) (hInside : ∀ op ∈ ops, op.staysInside = true)
    (hChanges : (d.beginBatch description).changes ops = k)
    (hRun : d.run (.beginBatch description :: ops ++ [.endBatch]) = e) :
    (k = 0 → e = d) ∧
      (0 < k →
        e.history = { d.history with
          past := ⟨d.tree, some (lastDescription description ops)⟩ ::
            if 0 < settings.historyLimit ∧ d.history.past.length = settings.historyLimit then
              d.history.past.dropLast
            else d.history.past
          future := [] } ∧
        e.undo.1 = true ∧ e.undo.2.Shows settings d.tree ∧
        e.undo.2.redo.1 = true ∧ e.undo.2.redo.2.Shows settings e.tree) := by
  have hBound := hReached.bounded
  have hWithin := inside_run (inside_beginBatch hBatch description) hInside
  rw [hChanges, Nat.zero_add] at hWithin
  have hEnd : ((d.beginBatch description).run ops).endBatch = e := by
    rw [← hRun, run_begin_end]
  constructor
  · rintro rfl
    rw [← hEnd]
    exact hWithin.endBatch_eq hBatch
  · intro hSome
    obtain ⟨n, rfl⟩ := Nat.exists_eq_succ_of_ne_zero (Nat.pos_iff_ne_zero.mp hSome)
    -- what is remembered, and what that makes of the past
    have hHistory := hWithin.history_endBatch hBatch
    rw [hEnd, hBound.remember_eq] at hHistory
    have hClosed : e.history.batch = none := by
      rw [hHistory]
      exact hBatch
    have hPast := congrArg History.past hHistory
    have hConsistent : e.Consistent settings := hRun ▸ hReached.consistent.run _
    have hLimit : e.history.Bounded settings.historyLimit := hRun ▸ bounded_run hBound _
    obtain ⟨hUndo, hTree, -, -⟩ := undo_of_past_eq_cons hClosed hLimit hPast
    obtain ⟨hRedo, hAgrees⟩ := redo_undo hClosed hLimit (hPast ▸ List.cons_ne_nil _ _)
    have hBack : e.undo.2.Consistent settings := hConsistent.perform .undo
    have hForth : e.undo.2.redo.2.Consistent settings := hBack.perform .redo
    exact ⟨hHistory, hUndo, hBack.shows hTree, hRedo, hForth.shows hAgrees.tree⟩

/-- A batch with two changes, begun twice, after a change that the limit of one step
lets go; between them an edit is refused and another one has nothing to do. -/
theorem run_batch_of_limit_one :
    ((opened ⟨1, defaultCeiling, 128⟩ (some ['a'])).run
        [.replaceSource ['b'], .beginBatch "first", .replaceSource ['c'], .delete .root,
          .beginBatch "second", .moveUp .root, .clearAll, .endBatch]).history.past =
      [⟨.root [.text ['b']], some "second"⟩] := by
  have hBatch := @run_batch ⟨1, defaultCeiling, 128⟩
    ((opened ⟨1, defaultCeiling, 128⟩ (some ['a'])).run [.replaceSource ['b']]) _ "first"
    [.replaceSource ['c'], .delete .root, .beginBatch "second", .moveUp .root, .clearAll] 2
    ⟨some ['a'], [.replaceSource ['b']], rfl⟩ rfl (by simp [Operation.staysInside])
    (by decide +kernel) rfl
  obtain ⟨hHistory, -⟩ := hBatch.2 (by decide)
  have hTree : ((opened ⟨1, defaultCeiling, 128⟩ (some ['a'])).run [.replaceSource ['b']]).tree =
      .root [.text ['b']] := by decide +kernel
  rw [hTree] at hHistory
  exact congrArg History.past hHistory

end Document

end Spintax
