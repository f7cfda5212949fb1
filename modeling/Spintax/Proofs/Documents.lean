import Spintax.Document
import Spintax.Proofs.ChildRules
import Spintax.Proofs.Histories

/-!
# Spintax — what holds of a document at any time

Whatever is done to a document, accepted or refused and in any order, its tree
and all the trees that its history holds are valid roots, and the source and the
count that it shows are those of its tree. Trees enter a document in three ways:
an edit makes one out of the tree that is there, reading makes one out of a
text, and undoing and redoing bring one back from the history. So the invariant
has to speak of the history as well (`History.Holds`), the batch that is open
included.

* `Document.EditStep` — all that an edit can do to a document;
* `Document.editStep_perform` — an edit does nothing else;
* `Document.consistent_run_opened` — the invariant, over whole runs.
-/

namespace Spintax

/-! ## What an edit does -/

/-- An edit, which is neither a step in the history nor one end of a batch. -/
def Operation.isEdit : Operation → Bool
  | .beginBatch _ | .endBatch | .undo | .redo => false
  | _ => true

/-- Whether an answer says that an edit replaced the tree. -/
def Answer.isChanged : Answer → Bool
  | .edited (.ok result) => result.changed
  | _ => false

namespace Document

/-- The document after a change to another tree. -/
def change (d : Document) (root : Node) (description : String)
    (diagnostics : List Diagnostic) : Document :=
  { d.withTree root with
    history := d.history.record d.tree (some description)
    diagnostics }

/-- All that an edit can do: nothing at all, if it is refused or has nothing to
do, or else put a tree in place of the one that is there, which is recorded. -/
inductive EditStep (d : Document) : Answer → Document → Prop
  | kept {answer : Answer} (hAnswer : answer.isChanged = false) : EditStep d answer d
  | changed {answer : Answer} (hAnswer : answer.isChanged = true) (root : Node)
      (description : String) (diagnostics : List Diagnostic)
      (hValid : d.tree.ValidRoot → root.ValidRoot) :
      EditStep d answer (d.change root description diagnostics)

/-- An edit of the tree is such a step, if it keeps the tree valid. -/
theorem editStep_commitIfOk {d : Document} {description : String}
    {edited : Except EditError Outcome}
    (hValid : ∀ outcome, edited = .ok outcome → d.tree.ValidRoot →
      (outcome.tree d.tree).ValidRoot) :
    EditStep d (.edited (d.commitIfOk description edited).1)
      (d.commitIfOk description edited).2 := by
  cases edited with
  | error e => exact .kept rfl
  | ok outcome =>
    cases outcome with
    | unchanged => exact .kept rfl
    | changed root => exact .changed rfl root description d.diagnostics (hValid _ rfl)

/-- The same for an edit that gives a tree whenever it is accepted. -/
theorem editStep_commitIfOk_map {d : Document} {description : String}
    {edited : Except EditError Node}
    (hValid : ∀ root, edited = .ok root → d.tree.ValidRoot → root.ValidRoot) :
    EditStep d (.edited (d.commitIfOk description (edited.map .changed)).1)
      (d.commitIfOk description (edited.map .changed)).2 := by
  refine editStep_commitIfOk fun outcome hOk hTree => ?_
  obtain ⟨root, hRoot, rfl⟩ := Outcome.exists_changed hOk
  exact hValid root hRoot hTree

/-- **An edit does nothing else to a document.** -/
theorem editStep_perform (d : Document) {op : Operation} (h : op.isEdit = true) :
    EditStep d (d.perform op).1 (d.perform op).2 := by
  cases op with
  | apply m => exact editStep_commitIfOk fun _ hOk hTree => hTree.apply hOk
  | update path node => exact editStep_commitIfOk_map fun _ hOk hTree => hTree.update hOk
  | updateWith path updater =>
    exact editStep_commitIfOk_map fun _ hOk hTree => hTree.updateWith hOk
  | insert path node => exact editStep_commitIfOk_map fun _ hOk hTree => hTree.insert hOk
  | delete path => exact editStep_commitIfOk_map fun _ hOk hTree => hTree.delete hOk
  | moveUp path => exact editStep_commitIfOk fun _ hOk hTree => hTree.move hOk
  | moveDown path => exact editStep_commitIfOk fun _ hOk hTree => hTree.move hOk
  | replaceSource text =>
    -- what is read from a text is valid whatever was there before
    have hRead : (d.settings.read text).root.ValidRoot := .of_wellFormed rfl (wellFormed_ofText ..)
    exact .changed rfl (d.settings.read text).root "replaceSource"
      (d.settings.read text).diagnostics fun _ => hRead
  | clearAll => exact .changed rfl (.root []) "clearAll" [] fun _ => Node.validRoot_nil
  | _ => exact absurd h (by simp [Operation.isEdit])

end Document

/-! ## Documents -/

namespace Document

/-- A document that can be edited: all its trees are valid roots, and what it
shows is the source and the count of its tree. -/
structure Consistent (settings : Settings) (d : Document) : Prop where
  settings_eq : d.settings = settings
  tree : d.tree.ValidRoot
  history : d.history.Holds Node.ValidRoot
  source : d.source = d.tree.source
  variations : d.variations = settings.count d.tree

variable {settings : Settings} {d : Document}

/-- A document stays consistent with another valid tree and another history of valid
trees. -/
theorem Consistent.withTree (h : d.Consistent settings) {root : Node} (hRoot : root.ValidRoot)
    {history : History} (hHistory : history.Holds Node.ValidRoot)
    (diagnostics : List Diagnostic) :
    Consistent settings { d.withTree root with history, diagnostics } where
  settings_eq := h.settings_eq
  tree := hRoot
  history := hHistory
  source := rfl
  variations := by
    rw [← h.settings_eq]
    rfl

theorem Consistent.withHistory (h : d.Consistent settings) {history : History}
    (hHistory : history.Holds Node.ValidRoot) : Consistent settings { d with history } :=
  ⟨h.settings_eq, h.tree, hHistory, h.source, h.variations⟩

/-- What a step in the history gives back is restored with all that goes with it. -/
theorem Consistent.restore (h : d.Consistent settings) {step : Option Node × History}
    (hStep : (∀ n ∈ step.1, n.ValidRoot) ∧ step.2.Holds Node.ValidRoot) :
    (d.restore step).2.Consistent settings := by
  obtain ⟨_ | root, history⟩ := step
  · exact h.withHistory hStep.2
  · exact h.withTree (hStep.1 root rfl) hStep.2 []

/-- **An edit keeps a document consistent.** -/
theorem Consistent.editStep {answer : Answer} {d' : Document} (h : d.Consistent settings)
    (hStep : EditStep d answer d') : d'.Consistent settings := by
  cases hStep with
  | kept => exact h
  | changed hAnswer root description diagnostics hValid =>
    exact h.withTree (hValid h.tree) (h.history.record h.tree _) diagnostics

/-- An edit keeps the history within its limit. -/
theorem EditStep.bounded {limit : Nat} {answer : Answer} {d' : Document}
    (hStep : EditStep d answer d') (h : d.history.Bounded limit) : d'.history.Bounded limit := by
  cases hStep with
  | kept => exact h
  | changed => exact h.record ..

theorem history_restore (d : Document) (step : Option Node × History) :
    (d.restore step).2.history = step.2 := by
  obtain ⟨_ | root, history⟩ := step <;> rfl

/-- **One operation keeps a document consistent**, whatever its answer is. -/
theorem Consistent.perform (h : d.Consistent settings) (op : Operation) :
    (d.perform op).2.Consistent settings := by
  by_cases hEdit : op.isEdit = true
  · exact h.editStep (editStep_perform d hEdit)
  · cases op with
    | beginBatch description => exact h.withHistory (h.history.beginBatch.describeBatch description)
    | endBatch => exact h.withHistory h.history.endBatch
    | undo => exact h.restore (h.history.undo h.tree)
    | redo => exact h.restore (h.history.redo h.tree)
    | _ => exact absurd rfl hEdit

/-- Nor does an operation lead out of the limit of the history. -/
theorem bounded_perform {limit : Nat} (h : d.history.Bounded limit) (op : Operation) :
    (d.perform op).2.history.Bounded limit := by
  by_cases hEdit : op.isEdit = true
  · exact (editStep_perform d hEdit).bounded h
  · cases op with
    | beginBatch description => exact h.beginBatch.withBatch _
    | endBatch => exact h.endBatch
    | undo =>
      show (d.restore (d.history.undo d.tree)).2.history.Bounded limit
      rw [history_restore]
      exact h.undo d.tree
    | redo =>
      show (d.restore (d.history.redo d.tree)).2.history.Bounded limit
      rw [history_restore]
      exact h.redo d.tree
    | _ => exact absurd rfl hEdit

/-- What every operation keeps, a run keeps. -/
theorem run_invariant {P : Document → Prop} (hStep : ∀ d op, P d → P (d.perform op).2) (h : P d)
    (ops : List Operation) : P (d.run ops) := by
  induction ops generalizing d with
  | nil => exact h
  | cons op ops ih => exact ih (hStep d op h)

/-- **A run of operations keeps a document consistent.** -/
theorem Consistent.run (h : d.Consistent settings) (ops : List Operation) :
    (d.run ops).Consistent settings :=
  run_invariant (fun _ op hConsistent => hConsistent.perform op) h ops

theorem bounded_run {limit : Nat} (h : d.history.Bounded limit) (ops : List Operation) :
    (d.run ops).history.Bounded limit :=
  run_invariant (P := fun d => d.history.Bounded limit)
    (fun _ op hBound => bounded_perform hBound op) h ops

/-! ## Documents that are reached -/

/-- A document as it is opened, with a text or without one. -/
def opened (settings : Settings) : Option (List Char) → Document
  | none => empty settings
  | some text => ofText text settings

theorem consistent_ofTree {root : Node} (hRoot : root.ValidRoot) :
    (ofTree root settings).Consistent settings :=
  ⟨rfl, hRoot, History.holds_empty _, rfl, rfl⟩

/-- A document that can come about. -/
def Reachable (settings : Settings) (d : Document) : Prop :=
  ∃ text? ops, (opened settings text?).run ops = d

/-- A document that is opened is consistent, on a text or empty. -/
theorem consistent_opened (text? : Option (List Char)) :
    (opened settings text?).Consistent settings := by
  cases text? with
  | none => exact consistent_ofTree Node.validRoot_nil
  | some text =>
    have hRead : (settings.read text).root.ValidRoot := .of_wellFormed rfl (wellFormed_ofText ..)
    have hTree : (ofTree (settings.read text).root settings).Consistent settings :=
      consistent_ofTree hRead
    exact ⟨rfl, hTree.tree, hTree.history, rfl, rfl⟩

/-- **Whatever can be reached is consistent.** -/
theorem Reachable.consistent (h : d.Reachable settings) : d.Consistent settings := by
  obtain ⟨text?, ops, rfl⟩ := h
  exact (consistent_opened text?).run ops

/-- Whatever can be reached has a history within the limit of its settings. -/
theorem Reachable.bounded (h : d.Reachable settings) :
    d.history.Bounded settings.historyLimit := by
  obtain ⟨text?, ops, rfl⟩ := h
  cases text? with
  | none => exact bounded_run (History.bounded_empty _) ops
  | some text => exact bounded_run (History.bounded_empty _) ops

/-- **Every document that is reached is consistent**, from whatever text it was
opened and whatever was done to it. -/
theorem consistent_run_opened (settings : Settings) (text? : Option (List Char))
    (ops : List Operation) : ((opened settings text?).run ops).Consistent settings :=
  (consistent_opened text?).run ops

end Document

end Spintax
