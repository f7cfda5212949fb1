import Spintax.Proofs.Documents

/-!
# Spintax — steps in the history that can and cannot be made

Undoing and redoing close the open batch before they look at the two sides of
the history, whether a step is made in the end or not. The queries `canUndo` and
`canRedo` look at the sides as they are. Both agree outside a batch. In a batch
that has recorded a change they need not: closing it adds to the past, so there
is always something to undo, and it empties the future, so there is never
something to redo. And a step that is not made has closed the batch all the same,
which operations that come later can tell (`Document.tree_run_of_update`).

* `History.isSome_undo`, `History.isSome_redo` — a step is made if there is
  something on its side when the batch is closed;
* `History.eq_endBatch_of_undo`, `History.eq_endBatch_of_redo` — what a step that
  is not made leaves;
* `Document.not_made_iff` — such a step is without effect exactly outside a batch;
* `Document.canUndo_canRedo_iff` — when the queries foretell the steps.
-/

namespace Spintax

namespace History

/-! ## Steps of a history -/

section Steps

variable {h h' : History} {current : Node}

/-- A step back finds a tree exactly if there is a past once the batch is closed. -/
theorem isSome_undo (h : History) (current : Node) :
    (h.undo current).1.isSome = h.endBatch.canUndo := by
  unfold undo canUndo
  simp only
  cases h.endBatch.past <;> rfl

/-- A step forth finds a tree exactly if there is a future once the batch is closed. -/
theorem isSome_redo (h : History) (current : Node) :
    (h.redo current).1.isSome = h.endBatch.canRedo := by
  unfold redo canRedo
  simp only
  cases h.endBatch.future <;> rfl

/-- A batch that has recorded something becomes a step that can be undone. -/
theorem canUndo_endBatch (h : History) : h.endBatch.canUndo = (h.canUndo || h.isPending) := by
  cases hPending : h.isPending with
  | false =>
    rw [endBatch_of_not_pending hPending, Bool.or_false]
    rfl
  | true =>
    obtain ⟨before, description, hBatch⟩ := exists_recorded hPending
    rw [endBatch_of_recorded hBatch, Bool.or_true]
    show (!(push h.limit ⟨before, description⟩ h.past).isEmpty) = true
    rw [push_eq_cons]
    rfl

/-- And nothing can be redone any more. -/
theorem canRedo_endBatch (h : History) : h.endBatch.canRedo = (h.canRedo && !h.isPending) := by
  cases hPending : h.isPending with
  | false =>
    rw [endBatch_of_not_pending hPending, Bool.not_false, Bool.and_true]
    rfl
  | true =>
    obtain ⟨before, description, hBatch⟩ := exists_recorded hPending
    rw [endBatch_of_recorded hBatch, Bool.not_true, Bool.and_false]
    rfl

/-- Closing the batch changes what a query says exactly if something was recorded in
it, and there was no past or there was a future. -/
theorem queries_eq_endBatch_iff (h : History) :
    (h.canUndo = h.endBatch.canUndo ↔ ¬(h.isPending = true ∧ h.past = [])) ∧
      (h.canRedo = h.endBatch.canRedo ↔ ¬(h.isPending = true ∧ h.future ≠ [])) := by
  rw [canUndo_endBatch, canRedo_endBatch, canUndo, canRedo]
  cases h.isPending <;> cases h.past <;> cases h.future <;> simp

/-- A step back that is not made has closed the batch. -/
theorem eq_endBatch_of_undo (hUndo : h.undo current = (none, h')) : h' = h.endBatch := by
  unfold undo at hUndo
  simp only at hUndo
  split at hUndo
  · exact (Prod.mk.inj hUndo).2.symm
  · exact absurd (Prod.mk.inj hUndo).1 nofun

/-- A step forth that is not made closes the batch as well, and does nothing else. -/
theorem eq_endBatch_of_redo (hRedo : h.redo current = (none, h')) : h' = h.endBatch := by
  unfold redo at hRedo
  simp only at hRedo
  split at hRedo
  · exact (Prod.mk.inj hRedo).2.symm
  · exact absurd (Prod.mk.inj hRedo).1 nofun

end Steps

end History

namespace Document

/-! ## Steps of a document -/

section Steps

variable {d d' : Document}

theorem restore_fst (d : Document) (step : Option Node × History) :
    (d.restore step).1 = step.1.isSome := by
  obtain ⟨_ | root, history⟩ := step <;> rfl

theorem undo_fst (d : Document) : d.undo.1 = d.history.endBatch.canUndo := by
  rw [undo, restore_fst, History.isSome_undo]

theorem redo_fst (d : Document) : d.redo.1 = d.history.endBatch.canRedo := by
  rw [redo, restore_fst, History.isSome_redo]

/-- Where a history has nothing to give back, only the history is another one. -/
theorem exists_of_restore {step : Option Node × History} (h : d.restore step = (false, d')) :
    ∃ history, step = (none, history) ∧ d' = { d with history } := by
  obtain ⟨_ | root, history⟩ := step
  · exact ⟨history, rfl, (Prod.mk.inj h).2.symm⟩
  · exact absurd (Prod.mk.inj h).1 nofun

/-- To a document a step back that is not made closes the batch and does nothing else. -/
theorem eq_endBatch_of_undo (hUndo : d.undo = (false, d')) : d' = d.endBatch := by
  obtain ⟨history, hStep, rfl⟩ := exists_of_restore hUndo
  rw [History.eq_endBatch_of_undo hStep]
  rfl

/-- To a document a step forth that is not made closes the batch and does nothing else. -/
theorem eq_endBatch_of_redo (hRedo : d.redo = (false, d')) : d' = d.endBatch := by
  obtain ⟨history, hStep, rfl⟩ := exists_of_restore hRedo
  rw [History.eq_endBatch_of_redo hStep]
  rfl

/-- Closing the batch changes nothing exactly if none is open. -/
theorem endBatch_eq_self_iff : d.endBatch = d ↔ d.history.batch = none := by
  rw [← History.endBatch_eq_self_iff]
  constructor
  · intro hEq
    exact congrArg Document.history hEq
  · intro hEq
    rw [endBatch, hEq]

end Steps

/-! ## What shows whether a batch is open -/

section Later

variable {d e : Document}

/-- Undoing goes back to the top of the past, when the batch is closed. -/
theorem tree_undo {s : Snapshot} {past : List Snapshot}
    (hPast : d.history.endBatch.past = s :: past) : d.undo.2.tree = s.tree := by
  unfold undo History.undo
  simp only [hPast]
  rfl

/-- Undoing a change goes back to the tree before it, or to the tree before the
first change of the batch. -/
theorem tree_undo_change (d : Document) (root : Node) (description : String)
    (diagnostics : List Diagnostic) :
    (d.change root description diagnostics).undo.2.tree = d.history.pending?.getD d.tree := by
  obtain ⟨version, tree, ⟨limit, past, future, batch⟩, settings, source, variations, _⟩ := d
  -- what is pushed when the batch is closed, or at once if there is none
  obtain ⟨s, hTree, rest, hPast⟩ : ∃ s : Snapshot, s.tree = (batch.bind Batch.before).getD tree ∧
      ∃ rest, ((History.mk limit past future batch).record tree (some description)).endBatch.past =
        s :: rest := by
    cases batch with
    | none => exact ⟨⟨tree, some description⟩, rfl, _, History.push_eq_cons ..⟩
    | some b =>
      obtain ⟨_ | before, said⟩ := b
      · exact ⟨⟨tree, said <|> some description⟩, rfl, _, History.push_eq_cons ..⟩
      · exact ⟨⟨before, said <|> some description⟩, rfl, _, History.push_eq_cons ..⟩
  rw [tree_undo hPast, hTree]
  rfl

/-- The root can be replaced by any valid root. -/
theorem perform_update_root (d : Document) {root : Node} (hRoot : root.ValidRoot) :
    (d.perform (.update .root root)).2 = d.change root "update" d.diagnostics := by
  have hUpdate : Edit.update d.tree .root root = .ok root := by
    unfold Edit.update Edit.updateWith
    simp only [hRoot.checked]
    show (if root.isRoot = true then Except.ok root else _) = _
    rw [if_pos hRoot.isRoot]
  show (d.commitIfOk "update" ((Edit.update d.tree .root root).map .changed)).2 = _
  rw [hUpdate]
  rfl

/-- Two changes and a step back lead to the tree between the two, but in a batch to
the tree before its first change. -/
theorem tree_run_of_update (d : Document) {root : Node} (hRoot : root.ValidRoot) :
    (d.run [.update .root root, .clearAll, .undo]).tree =
      (d.history.batch.map fun b => b.before.getD d.tree).getD root := by
  show ((d.perform (.update .root root)).2.change (.root []) "clearAll" []).undo.2.tree = _
  rw [perform_update_root d hRoot, tree_undo_change]
  show ((d.history.record d.tree _).pending?).getD root = _
  rw [History.pending?_record]

/-- **Later operations tell whether a batch is open.** -/
theorem exists_tree_run_ne (hOpen : d.history.batch ≠ none) (hClosed : e.history.batch = none) :
    ∃ ops, (e.run ops).tree ≠ (d.run ops).tree := by
  obtain ⟨b, hBatch⟩ := Option.ne_none_iff_exists'.mp hOpen
  -- some root is another one than that to which the batch goes back
  obtain ⟨root, hRoot, hNe⟩ : ∃ root : Node, root.ValidRoot ∧ root ≠ b.before.getD d.tree := by
    by_cases hEmpty : b.before.getD d.tree = .root []
    · refine ⟨.root [.text ['a']], ⟨rfl, rfl⟩, ?_⟩
      rw [hEmpty]
      simp
    · exact ⟨.root [], Node.validRoot_nil, Ne.symm hEmpty⟩
  refine ⟨[.update .root root, .clearAll, .undo], ?_⟩
  rw [tree_run_of_update d hRoot, tree_run_of_update e hRoot, hClosed, hBatch]
  exact hNe

end Later

/-! ## Steps that are not made -/

/-- **A step that is not made closes the batch**, and does nothing else. So it is
without effect exactly if no batch is open; otherwise there are operations which
lead to another tree than they would have without it. -/
theorem not_made_iff (d d' : Document) (h h' : History) (current : Node) :
    (d.undo = (false, d') ∨ d.redo = (false, d') →
      d' = d.endBatch ∧ (d' = d ↔ d.history.batch = none) ∧
        ((∀ ops, (d'.run ops).tree = (d.run ops).tree) ↔ d.history.batch = none)) ∧
    (h.undo current = (none, h') ∨ h.redo current = (none, h') →
      h' = h.endBatch ∧ (h' = h ↔ h.batch = none)) := by
  constructor
  · intro hStep
    have hEnd : d' = d.endBatch := hStep.elim eq_endBatch_of_undo eq_endBatch_of_redo
    refine ⟨hEnd, ?_, ?_, ?_⟩
    · rw [hEnd]
      exact endBatch_eq_self_iff
    · intro hSame
      by_contra hOpen
      have hClosed : d'.history.batch = none := by
        rw [hEnd]
        exact History.batch_endBatch d.history
      -- two changes and a step back tell an open batch from a closed one
      obtain ⟨ops, hNe⟩ := exists_tree_run_ne hOpen hClosed
      exact hNe (hSame ops)
    · intro hNone ops
      rw [hEnd, endBatch_eq_self_iff.mpr hNone]
  · intro hStep
    have hEnd : h' = h.endBatch :=
      hStep.elim History.eq_endBatch_of_undo History.eq_endBatch_of_redo
    refine ⟨hEnd, ?_⟩
    rw [hEnd]
    exact History.endBatch_eq_self_iff

/-- There is nothing to undo, but the batch is closed. -/
example : ((opened .default none).beginBatch "both").undo = (false, opened .default none) := by
  decide +kernel

/-! ## What the queries say -/

/-- **The queries foretell the steps** except when the open batch has recorded a
change: then there is a step back, though there may be no past yet, and there is
no step forth, though there may still be a future. -/
theorem canUndo_canRedo_iff (d : Document) (h : History) (current : Node) :
    ((d.history.canUndo = d.undo.1 ↔
        ¬(d.history.isPending = true ∧ d.history.past = [])) ∧
      (d.history.canRedo = d.redo.1 ↔
        ¬(d.history.isPending = true ∧ d.history.future ≠ []))) ∧
    (h.canUndo = (h.undo current).1.isSome ↔ ¬(h.isPending = true ∧ h.past = [])) ∧
      (h.canRedo = (h.redo current).1.isSome ↔
        ¬(h.isPending = true ∧ h.future ≠ [])) := by
  rw [undo_fst, redo_fst, History.isSome_undo, History.isSome_redo]
  exact ⟨d.history.queries_eq_endBatch_iff, h.queries_eq_endBatch_iff⟩

/-- After a change in a batch, neither query foretells the step. -/
example :
    let d := (opened .default (some ['a'])).run
      [.replaceSource ['b'], .undo, .beginBatch "c", .replaceSource ['c']]
    (d.history.canUndo, d.undo.1) = (false, true) ∧
      (d.history.canRedo, d.redo.1) = (true, false) := by
  decide +kernel

end Document

end Spintax
