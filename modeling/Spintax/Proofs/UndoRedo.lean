import Spintax.Proofs.Documents

/-!
# Spintax — undo and redo over a run of edits

After a run of edits, undoing walks back over the trees that the edits replaced,
as far as the limit of the history lets it, and redoing walks forth again over
the same trees. Three facts carry this. The past holds the trees that were
replaced, the last one first, cut off at the limit (`Document.Replaced`).
Undoing passes from one to the next (`Document.Undone`). And redoing takes one
undoing back, the history included (`History.redo_undo`), so the way forth is
the way back read from its end (`Document.agrees_redos`).

* `Document.trees` — the trees of a run, one after the other;
* `Document.replaced_run` — what a run of edits leaves in the past;
* `Document.undone_undos` — undoing several times;
* `Document.undo_redo_run` — back and forth again.
-/

namespace Spintax

namespace Document

/-! ## A run of edits -/

/-- What the operations of a run answer. -/
def answers : Document → List Operation → List Answer
  | _, [] => []
  | d, op :: ops => (d.perform op).1 :: answers (d.perform op).2 ops

/-- How many operations of a run report a change. -/
def changes (d : Document) (ops : List Operation) : Nat :=
  (d.answers ops).countP Answer.isChanged

theorem changes_cons (d : Document) (op : Operation) (ops : List Operation) :
    d.changes (op :: ops) =
      (d.perform op).2.changes ops + if (d.perform op).1.isChanged then 1 else 0 :=
  List.countP_cons

/-- The trees that the changes of a run put in place, one after the other. -/
def newTrees : Document → List Operation → List Node
  | _, [] => []
  | d, op :: ops =>
    if (d.perform op).1.isChanged then
      (d.perform op).2.tree :: newTrees (d.perform op).2 ops
    else newTrees (d.perform op).2 ops

/-- The tree at the start of a run, and then the tree after each change. -/
def trees (d : Document) (ops : List Operation) : List Node :=
  d.tree :: d.newTrees ops

/-- There are as many new trees as changes. -/
theorem length_newTrees (d : Document) (ops : List Operation) :
    (d.newTrees ops).length = d.changes ops := by
  induction ops generalizing d with
  | nil => rfl
  | cons op ops ih =>
    have hRest := ih (d.perform op).2
    rw [changes] at hRest
    rw [newTrees, changes, answers, List.countP_cons]
    split
    · rw [List.length_cons, hRest]
    · exact hRest

theorem length_trees (d : Document) (ops : List Operation) :
    (d.trees ops).length = d.changes ops + 1 := by
  rw [trees, List.length_cons, length_newTrees]

/-- `e` comes from `d` by changes alone, which replaced the trees `olds`, the
last one first. -/
structure Replaced (limit : Nat) (d e : Document) (olds : List Node) : Prop where
  bounded : e.history.Bounded limit
  batch : e.history.batch = none
  version : e.version = d.version + UInt64.ofNat olds.length
  past : e.history.past.map Snapshot.tree =
    History.keep limit (olds ++ d.history.past.map Snapshot.tree)
  future : olds ≠ [] → e.history.future = []

/-- Before any change nothing is replaced. -/
theorem Replaced.refl {limit : Nat} {d : Document} (hBatch : d.history.batch = none)
    (hBound : d.history.Bounded limit) : Replaced limit d d [] where
  bounded := hBound
  batch := hBatch
  version := (UInt64.add_zero _).symm
  past := by
    refine (History.keep_eq_self fun hLimit => ?_).symm
    show (d.history.past.map Snapshot.tree).length ≤ limit
    rw [List.length_map]
    exact hBound.length_past_le hLimit
  future := fun h => absurd rfl h

/-- **A change replaces the current tree**, which comes first in the past. -/
theorem Replaced.change {limit : Nat} {d e : Document} {olds : List Node}
    (h : Replaced limit d e olds) (root : Node) (description : String)
    (diagnostics : List Diagnostic) :
    Replaced limit d (e.change root description diagnostics) (e.tree :: olds) := by
  -- no batch is open, so the change is remembered as it is
  have hHistory : (e.change root description diagnostics).history =
      e.history.remember ⟨e.tree, some description⟩ := by
    show e.history.record e.tree (some description) = _
    rw [History.record, h.batch]
  refine ⟨?_, ?_, ?_, ?_, fun _ => ?_⟩
  · rw [hHistory]
    exact h.bounded.remember _
  · rw [hHistory]
    exact h.batch
  · show e.version + 1 = _
    rw [h.version, List.length_cons, UInt64.ofNat_add, UInt64.add_assoc]
    rfl
  · rw [hHistory, History.remember, h.bounded.limit_eq,
      History.push_eq_keep h.bounded.length_past_le, History.map_keep, List.map_cons, h.past]
    exact History.keep_append_keep [e.tree] _
  · rw [hHistory]
    rfl

/-- **A run of edits leaves the trees that it replaced in the past.** -/
theorem replaced_run {limit : Nat} {d e : Document} {olds : List Node} {ops : List Operation}
    (h : Replaced limit d e olds) (hEdits : ∀ op ∈ ops, op.isEdit = true) :
    ∃ olds', (e.newTrees ops).reverse ++ e.tree :: olds = (e.run ops).tree :: olds' ∧
      Replaced limit d (e.run ops) olds' := by
  induction ops generalizing e olds with
  | nil => exact ⟨olds, rfl, h⟩
  | cons op ops ih =>
    rw [List.forall_mem_cons] at hEdits
    have hStep := editStep_perform e hEdits.1
    have hRun : e.run (op :: ops) = (e.perform op).2.run ops := rfl
    rw [hRun, newTrees]
    generalize e.perform op = result at hStep ⊢
    obtain ⟨answer, e'⟩ := result
    cases hStep with
    | kept hAnswer =>
      rw [if_neg (by simp [hAnswer])]
      exact ih h hEdits.2
    | changed hAnswer root description diagnostics =>
      -- the tree of `e` is now the last one that was replaced
      obtain ⟨olds', hTrees, hReplaced⟩ := ih (h.change root description diagnostics) hEdits.2
      rw [if_pos hAnswer, List.reverse_cons, List.append_assoc]
      exact ⟨olds', hTrees, hReplaced⟩

/-- The trees of a run of edits, read backwards, are the last one and those
that were replaced. -/
theorem exists_replaced {limit : Nat} {d : Document} {ops : List Operation}
    (hBatch : d.history.batch = none) (hBound : d.history.Bounded limit)
    (hEdits : ∀ op ∈ ops, op.isEdit = true) :
    ∃ olds, (d.trees ops).reverse = (d.run ops).tree :: olds ∧ olds.length = d.changes ops ∧
      Replaced limit d (d.run ops) olds := by
  obtain ⟨olds, hTrees, hReplaced⟩ := replaced_run (Replaced.refl hBatch hBound) hEdits
  have hReverse : (d.trees ops).reverse = (d.run ops).tree :: olds := by
    rw [trees, List.reverse_cons]
    exact hTrees
  have hLength := congrArg List.length hReverse
  rw [List.length_reverse, length_trees, List.length_cons] at hLength
  exact ⟨olds, hReverse, (Nat.succ.inj hLength).symm, hReplaced⟩

/-! ## One step back or forth -/

section Step

variable {limit : Nat} {d : Document} {s : Snapshot}

/-- **A step back** brings the most recent tree of the past back. The current tree goes to
the future, and the version counts the step. -/
theorem undo_of_past_eq_cons (hBatch : d.history.batch = none) (hBound : d.history.Bounded limit)
    {past : List Snapshot} (hPast : d.history.past = s :: past) :
    d.undo.1 = true ∧ d.undo.2.tree = s.tree ∧ d.undo.2.version = d.version + 1 ∧
      d.undo.2.history = { d.history with
        past
        future := ⟨d.tree, s.description⟩ :: d.history.future } := by
  rw [undo, History.undo_of_past_eq_cons hBatch hBound hPast]
  exact ⟨rfl, rfl, rfl, rfl⟩

/-- Without a past there is no step back. -/
theorem undo_of_past_eq_nil (hBatch : d.history.batch = none) (hPast : d.history.past = []) :
    d.undo = (false, d) := by
  rw [undo, History.undo_of_past_eq_nil hBatch hPast]
  rfl

theorem redo_of_future_eq_nil (hBatch : d.history.batch = none)
    (hFuture : d.history.future = []) : d.redo = (false, d) := by
  rw [redo, History.redo_of_future_eq_nil hBatch hFuture]
  rfl

/-- A step forth counts for the version. -/
theorem version_redo (h : d.redo.1 = true) : d.redo.2.version = d.version + 1 := by
  unfold redo at h ⊢
  generalize d.history.redo d.tree = step at h ⊢
  obtain ⟨_ | root, history⟩ := step
  · exact absurd h Bool.false_ne_true
  · rfl

/-- Two documents with the same tree and the same history. -/
structure Agrees (d e : Document) : Prop where
  tree : d.tree = e.tree
  history : d.history = e.history

theorem Agrees.trans {d e f : Document} (h : Agrees d e) (h' : Agrees e f) : Agrees d f :=
  ⟨h.tree.trans h'.tree, h.history.trans h'.history⟩

/-- What redoing does depends on nothing else. -/
theorem Agrees.redo {d e : Document} (h : Agrees d e) :
    d.redo.1 = e.redo.1 ∧ Agrees d.redo.2 e.redo.2 := by
  rw [Document.redo, Document.redo, h.tree, h.history]
  obtain ⟨_ | root, history⟩ := e.history.redo e.tree
  · exact ⟨rfl, h.tree, rfl⟩
  · exact ⟨rfl, rfl, rfl⟩

/-- Redoing takes back what undoing did. -/
theorem redo_undo (hBatch : d.history.batch = none) (hBound : d.history.Bounded limit)
    (hPast : d.history.past ≠ []) : d.undo.2.redo.1 = true ∧ Agrees d.undo.2.redo.2 d := by
  obtain ⟨s, past, hPast⟩ := List.exists_cons_of_ne_nil hPast
  obtain ⟨-, hTree, -, -⟩ := undo_of_past_eq_cons hBatch hBound hPast
  have hBack := History.redo_undo hBatch hBound hPast d.tree
  rw [← history_restore, ← undo, ← hTree] at hBack
  rw [redo, hBack]
  exact ⟨rfl, rfl, rfl⟩

end Step

/-! ## Several steps -/

/-- The document after undoing so many times. -/
def undos (d : Document) (n : Nat) : Document :=
  d.run (List.replicate n .undo)

/-- The document after redoing so many times. -/
def redos (d : Document) (n : Nat) : Document :=
  d.run (List.replicate n .redo)

/-- The last of several steps back is made where the others lead. -/
theorem undos_succ (d : Document) (n : Nat) : d.undos (n + 1) = (d.undos n).undo.2 := by
  rw [undos, undos, List.replicate_succ', run, List.foldl_append]
  rfl

theorem redos_succ (d : Document) (n : Nat) : d.redos (n + 1) = (d.redos n).redo.2 := by
  rw [redos, redos, List.replicate_succ', run, List.foldl_append]
  rfl

/-- Undoing `n` times is possible. -/
structure HasSteps (limit : Nat) (d : Document) (n : Nat) : Prop where
  batch : d.history.batch = none
  bounded : d.history.Bounded limit
  past : n ≤ d.history.past.length

/-- `e` comes from `d` by undoing `n` times, where each time a tree comes back. -/
structure Undone (d e : Document) (n : Nat) : Prop where
  batch : e.history.batch = none
  version : e.version = d.version + UInt64.ofNat n
  past : e.history.past = d.history.past.drop n
  tree : (d.tree :: d.history.past.map Snapshot.tree)[n]? = some e.tree

section Steps

variable {limit : Nat} {d e : Document} {m n i : Nat}

theorem HasSteps.mono (h : HasSteps limit d n) (hLe : m ≤ n) : HasSteps limit d m :=
  ⟨h.batch, h.bounded, Nat.le_trans hLe h.past⟩

/-- **Undoing several times** walks down the past. -/
theorem undone_undos (h : HasSteps limit d n) : Undone d (d.undos n) n := by
  induction n with
  | zero => exact ⟨h.batch, (UInt64.add_zero _).symm, rfl, rfl⟩
  | succ n ih =>
    have hUndone := ih (h.mono (Nat.le_succ n))
    have hBound : (d.undos n).history.Bounded limit := bounded_run h.bounded _
    -- the past still holds the tree that comes next
    have hLt : n < d.history.past.length := h.past
    have hPast := hUndone.past
    rw [List.drop_eq_getElem_cons hLt] at hPast
    obtain ⟨-, hTree, hVersion, hHistory⟩ := undo_of_past_eq_cons hUndone.batch hBound hPast
    rw [undos_succ]
    refine ⟨?_, ?_, ?_, ?_⟩
    · rw [hHistory]
      exact hUndone.batch
    · rw [hVersion, hUndone.version, UInt64.ofNat_add, UInt64.add_assoc]
      rfl
    · rw [hHistory]
    · rw [hTree, List.getElem?_cons_succ, List.getElem?_map, List.getElem?_eq_getElem hLt]
      rfl

/-- As long as fewer steps back were made than the past is long, some of it is left. -/
theorem Undone.past_ne_nil (h : Undone d e n) (hPast : n < d.history.past.length) :
    e.history.past ≠ [] := by
  rw [h.past]
  exact mt List.drop_eq_nil_iff.mp (Nat.not_le_of_lt hPast)

/-- Each of the steps back is made. -/
theorem undo_undos (h : HasSteps limit d n) (hi : i < n) : (d.undos i).undo.1 = true := by
  have hUndone := undone_undos (h.mono (Nat.le_of_lt hi))
  have hBound : (d.undos i).history.Bounded limit := bounded_run h.bounded _
  have hPast := hUndone.past_ne_nil (Nat.lt_of_lt_of_le hi h.past)
  obtain ⟨s, past, hCons⟩ := List.exists_cons_of_ne_nil hPast
  exact (undo_of_past_eq_cons hUndone.batch hBound hCons).1

/-- One step forth is one step less back. -/
theorem redo_of_agrees_undos (h : HasSteps limit d (n + 1)) (hAgrees : Agrees e (d.undos (n + 1))) :
    e.redo.1 = true ∧ Agrees e.redo.2 (d.undos n) := by
  have hUndone := undone_undos (h.mono (Nat.le_succ n))
  have hBound : (d.undos n).history.Bounded limit := bounded_run h.bounded _
  rw [undos_succ] at hAgrees
  obtain ⟨hDone, hBack⟩ := redo_undo hUndone.batch hBound (hUndone.past_ne_nil h.past)
  exact ⟨hAgrees.redo.1.trans hDone, hAgrees.redo.2.trans hBack⟩

/-- **Redoing several times** walks the same way forth. -/
theorem agrees_redos (h : HasSteps limit d n) (hi : i ≤ n) :
    Agrees ((d.undos n).redos i) (d.undos (n - i)) ∧
      ((d.undos n).redos i).version = d.version + UInt64.ofNat (n + i) := by
  induction i with
  | zero => exact ⟨⟨rfl, rfl⟩, (undone_undos h).version⟩
  | succ i ih =>
    obtain ⟨hAgrees, hVersion⟩ := ih (Nat.le_of_succ_le hi)
    have hLeft : n - i = n - (i + 1) + 1 := by omega
    rw [hLeft] at hAgrees
    obtain ⟨hDone, hNext⟩ := redo_of_agrees_undos (h.mono (by omega)) hAgrees
    rw [redos_succ]
    refine ⟨hNext, ?_⟩
    rw [version_redo hDone, hVersion, ← Nat.add_assoc, UInt64.ofNat_add _ 1, UInt64.add_assoc]
    rfl

/-- Each of the steps forth is made. -/
theorem redo_redos (h : HasSteps limit d n) (hi : i < n) :
    ((d.undos n).redos i).redo.1 = true := by
  have hAgrees := (agrees_redos h (Nat.le_of_lt hi)).1
  have hLeft : n - i = n - (i + 1) + 1 := by omega
  rw [hLeft] at hAgrees
  exact (redo_of_agrees_undos (h.mono (by omega)) hAgrees).1

end Steps

/-! ## Back over the changes and forth again -/

section Replaced

variable {limit : Nat} {d e : Document} {olds : List Node}

/-- As many changes as are within the limit can be undone. -/
theorem Replaced.hasSteps (h : Replaced limit d e olds) :
    HasSteps limit e (History.kept limit olds.length) := by
  refine ⟨h.batch, h.bounded, ?_⟩
  rw [← List.length_map (f := Snapshot.tree), h.past, History.length_keep, List.length_append]
  exact History.kept_mono (Nat.le_add_right ..)

/-- The trees that undoing brings back are those that were replaced. -/
theorem Replaced.tree_undos (h : Replaced limit d e olds) {i : Nat}
    (hi : i ≤ History.kept limit olds.length) :
    (e.tree :: olds)[i]? = some (e.undos i).tree := by
  rw [← (undone_undos (h.hasSteps.mono hi)).tree]
  cases i with
  | zero => rfl
  | succ i =>
    -- nothing was cut off that near, and older trees lie behind
    have hInside := fun hLimit => Nat.lt_of_lt_of_le hi (History.kept_le_limit _ hLimit)
    have hNear : i < olds.length := Nat.lt_of_lt_of_le hi (History.kept_le ..)
    rw [List.getElem?_cons_succ, List.getElem?_cons_succ, h.past, History.getElem?_keep hInside,
      List.getElem?_append_left hNear]

/-- Without a past before the changes, there is none when they are undone. -/
theorem Replaced.undo_eq_false (h : Replaced limit d e olds) (hPast : d.history.past = []) :
    (e.undos (History.kept limit olds.length)).undo.1 = false := by
  have hLength := congrArg List.length h.past
  rw [hPast, List.length_map, History.length_keep, List.map_nil, List.append_nil] at hLength
  have hUndone := undone_undos h.hasSteps
  have hNone := hUndone.past.trans (List.drop_eq_nil_of_le (Nat.le_of_eq hLength))
  rw [undo_of_past_eq_nil hUndone.batch hNone]

/-- At the end of the way forth, nothing is left to redo. -/
theorem Replaced.redo_eq_false (h : Replaced limit d e olds) (hSome : olds ≠ []) {n : Nat}
    (hSteps : HasSteps limit e n) :
    ((e.undos n).redos n).redo = (false, (e.undos n).redos n) := by
  have hAgrees := (agrees_redos hSteps (Nat.le_refl n)).1
  rw [Nat.sub_self] at hAgrees
  refine redo_of_future_eq_nil ?_ ?_
  · rw [hAgrees.history]
    exact h.batch
  · rw [hAgrees.history]
    exact h.future hSome

end Replaced

/-- A document that shows a tree, its source and its count. -/
structure Shows (settings : Settings) (t : Node) (d : Document) : Prop where
  tree : d.tree = t
  source : d.source = t.source
  variations : d.variations = settings.count t

/-- A consistent document shows its tree. -/
theorem Consistent.shows {settings : Settings} {d : Document} {t : Node}
    (h : d.Consistent settings) (hTree : d.tree = t) : d.Shows settings t := by
  subst hTree
  exact ⟨rfl, h.source, h.variations⟩

/-- **Undoing and redoing walk back and forth over a run of edits.** Of the `k`
changes, those within the limit are taken back one after the other and then made
again, and each time the document shows the tree as it was. Every change and every step
back or forth counts for the version. -/
theorem undo_redo_run {settings : Settings} {d : Document} {ops : List Operation} {k m : Nat}
    (hReached : d.Reachable settings) (hBatch : d.history.batch = none)
    (hEdits : ∀ op ∈ ops, op.isEdit = true) (hChanges : d.changes ops = k) (hSome : 1 ≤ k)
    (hSteps : m = if settings.historyLimit = 0 then k else min k settings.historyLimit) :
    (d.trees ops).length = k + 1 ∧
      (∀ i < m, ((d.run ops).undos i).undo.1 = true ∧
        ∃ t ∈ (d.trees ops)[k - (i + 1)]?, ((d.run ops).undos (i + 1)).Shows settings t) ∧
      (∀ i < m, (((d.run ops).undos m).redos i).redo.1 = true ∧
        ∃ t ∈ (d.trees ops)[k - m + (i + 1)]?,
          (((d.run ops).undos m).redos (i + 1)).Shows settings t) ∧
      (((d.run ops).undos m).redos m).redo = (false, ((d.run ops).undos m).redos m) ∧
      (((d.run ops).undos m).redos m).version = d.version + UInt64.ofNat (k + 2 * m) ∧
      (d.history.past = [] → ((d.run ops).undos m).undo.1 = false) := by
  have hConsistent := hReached.consistent.run ops
  obtain ⟨olds, hReverse, hOlds, hReplaced⟩ := exists_replaced hBatch hReached.bounded hEdits
  rw [hChanges] at hOlds
  have hNe : olds ≠ [] := List.ne_nil_of_length_pos (hOlds ▸ hSome)
  -- as many trees are kept as there are steps back
  have hKept : History.kept settings.historyLimit olds.length = m := by
    rw [hSteps, hOlds]
    rfl
  have hLe : m ≤ k := by
    rw [← hKept, ← hOlds]
    exact History.kept_le ..
  have hHas : HasSteps settings.historyLimit (d.run ops) m := hKept ▸ hReplaced.hasSteps
  have hLength : (d.trees ops).length = k + 1 := by rw [length_trees, hChanges]
  -- the trees of the run, read backwards, are the trees of the steps back
  have hTree : ∀ i ≤ m, (d.trees ops)[k - i]? = some ((d.run ops).undos i).tree := by
    intro i hi
    rw [← hReplaced.tree_undos (hKept ▸ hi), ← hReverse, List.getElem?_reverse (by omega), hLength]
    rfl
  refine ⟨hLength, fun i hi => ?_, fun i hi => ?_, hReplaced.redo_eq_false hNe hHas, ?_,
    fun hPast => hKept ▸ hReplaced.undo_eq_false hPast⟩
  · exact ⟨undo_undos hHas hi, _, hTree (i + 1) hi, (hConsistent.run _).shows rfl⟩
  · -- after `i + 1` steps forth the tree is that of `i + 1` steps less back
    have hAgrees := (agrees_redos hHas (i := i + 1) hi).1
    have hThere := hTree (m - (i + 1)) (Nat.sub_le ..)
    have hIndex : k - (m - (i + 1)) = k - m + (i + 1) := by omega
    rw [hIndex] at hThere
    exact ⟨redo_redos hHas hi, _, hThere, ((hConsistent.run _).run _).shows hAgrees.tree⟩
  · rw [(agrees_redos hHas (Nat.le_refl m)).2, hReplaced.version, hOlds, UInt64.add_assoc,
      ← UInt64.ofNat_add, ← Nat.two_mul]

/-- Three changes with a limit of two; between them an edit is refused and
another one has nothing to do. -/
theorem undo_redo_run_of_limit_two :
    (((opened ⟨2, defaultCeiling, 128⟩ (some ['a'])).run
      [.replaceSource ['b'], .delete .root, .replaceSource ['c'], .moveUp .root,
        .clearAll]).undos 2).Shows ⟨2, defaultCeiling, 128⟩ (.root [.text ['b']]) := by
  obtain ⟨-, hBack, -⟩ := @undo_redo_run ⟨2, defaultCeiling, 128⟩
    (opened ⟨2, defaultCeiling, 128⟩ (some ['a']))
    [.replaceSource ['b'], .delete .root, .replaceSource ['c'], .moveUp .root, .clearAll] 3 2
    ⟨some ['a'], [], rfl⟩ rfl (by simp [Operation.isEdit]) (by decide +kernel) (by decide) rfl
  obtain ⟨-, t, ht, hShows⟩ := hBack 1 (by decide)
  have hTrees : ((opened ⟨2, defaultCeiling, 128⟩ (some ['a'])).trees
      [.replaceSource ['b'], .delete .root, .replaceSource ['c'], .moveUp .root,
        .clearAll])[1]? = some (.root [.text ['b']]) := by decide +kernel
  obtain rfl := Option.some.inj (hTrees.symm.trans ht)
  exact hShows

end Document

end Spintax
