import Mathlib.Data.List.Induction
import Spintax.Proofs.Availability
import Spintax.Proofs.UndoRedo

/-!
# Spintax — which step back a step forth takes back

A step forth takes back the latest step back that has not been taken back yet, and
it can do so only as long as nothing was changed since. The future of the history is
not quite the list of these steps: while a batch is open, changes wait in it and the
future is still there. What counts is the future as it is when the batch is closed,
for that is what redoing does first (`History.ahead`). One operation puts the
current tree in front of it, takes its first tree away, empties it or leaves it alone
(`Document.ahead_perform`); so over a run it holds the trees that were current at the
steps back which are still open, as far as nothing was changed since
(`Document.exists_timeline`).

* `Document.unpaired` — the steps back of a run that no step forth is paired with;
* `Document.exists_timeline` — the open steps back of a run, told apart by whether
  something was changed since;
* `Document.redo_run_opened` — when a step forth is made, and where it leads.
-/

namespace Spintax

/-! ## What lies ahead -/

namespace History

/-- The trees that redoing leads to, the next one first: the batch is closed before. -/
def ahead (h : History) : List Node :=
  h.endBatch.future.map Snapshot.tree

variable {limit : Nat} {h h' : History} {current root : Node}

theorem ahead_of_batch_eq_none (hBatch : h.batch = none) :
    h.ahead = h.future.map Snapshot.tree := by
  rw [ahead, endBatch_of_none hBatch]

theorem ahead_endBatch (h : History) : h.endBatch.ahead = h.ahead :=
  ahead_of_batch_eq_none (batch_endBatch h)

/-- Beginning a batch, or saying what it is, records nothing. -/
theorem ahead_beginBatch (h : History) (description : String) :
    (h.beginBatch.describeBatch description).ahead = h.ahead := by
  obtain ⟨limit, past, future, _ | ⟨_ | first, said⟩⟩ := h <;> rfl

/-- A change leaves nothing ahead, whether it is recorded at once or in a batch. -/
theorem ahead_record (h : History) (before : Node) (description : Option String) :
    (h.record before description).ahead = [] := by
  obtain ⟨limit, past, future, _ | ⟨_ | first, said⟩⟩ := h <;> rfl

/-- A step back puts the current tree ahead, and no other tree is lost. -/
theorem ahead_undo (hBound : h.Bounded limit) (hUndo : h.undo current = (some root, h')) :
    h'.ahead = current :: h.ahead := by
  have hBatch := batch_endBatch h
  rw [← undo_endBatch] at hUndo
  cases hPast : h.endBatch.past with
  | nil =>
    rw [undo_of_past_eq_nil hBatch hPast] at hUndo
    exact absurd (Prod.mk.inj hUndo).1 nofun
  | cons s past =>
    rw [undo_of_past_eq_cons hBatch hBound.endBatch hPast] at hUndo
    obtain ⟨-, rfl⟩ := Prod.mk.inj hUndo
    exact ahead_of_batch_eq_none hBatch

/-- A step forth takes the first tree that lies ahead. -/
theorem ahead_redo (hBound : h.Bounded limit) (hRedo : h.redo current = (some root, h')) :
    h.ahead = root :: h'.ahead := by
  have hBatch := batch_endBatch h
  rw [← redo_endBatch] at hRedo
  cases hFuture : h.endBatch.future with
  | nil =>
    rw [redo_of_future_eq_nil hBatch hFuture] at hRedo
    exact absurd (Prod.mk.inj hRedo).1 nofun
  | cons s future =>
    rw [redo_of_future_eq_cons hBatch hBound.endBatch hFuture] at hRedo
    obtain ⟨hRoot, rfl⟩ := Prod.mk.inj hRedo
    obtain rfl := Option.some.inj hRoot
    rw [ahead, hFuture, List.map_cons]
    congr 1
    symm
    exact ahead_of_batch_eq_none hBatch

end History

namespace Document

variable {limit : Nat} {d : Document}

/-- There is a step forth exactly if a tree lies ahead. -/
theorem redo_fst_iff (d : Document) : d.redo.1 = true ↔ d.history.ahead ≠ [] := by
  rw [redo_fst, History.canRedo, History.ahead]
  cases d.history.endBatch.future <;> simp

/-- A step back puts the current tree of the document ahead. -/
theorem ahead_of_undo (hBound : d.history.Bounded limit) (hMade : d.undo.1 = true) :
    d.undo.2.history.ahead = d.tree :: d.history.ahead := by
  unfold undo at hMade ⊢
  cases hUndo : d.history.undo d.tree with
  | mk root? history =>
    rw [hUndo] at hMade
    cases root? with
    | none => exact absurd hMade Bool.false_ne_true
    | some root => exact History.ahead_undo hBound hUndo

/-- A step forth makes the first tree ahead the current one. -/
theorem ahead_of_redo (hBound : d.history.Bounded limit) (hMade : d.redo.1 = true) :
    d.history.ahead = d.redo.2.tree :: d.redo.2.history.ahead := by
  unfold redo at hMade ⊢
  cases hRedo : d.history.redo d.tree with
  | mk root? history =>
    rw [hRedo] at hMade
    cases root? with
    | none => exact absurd hMade Bool.false_ne_true
    | some root => exact History.ahead_redo hBound hRedo

/-! ## Pairing -/

/-- One operation more is one answer more. -/
theorem answers_append (d : Document) (ops : List Operation) (op : Operation) :
    d.answers (ops ++ [op]) = d.answers ops ++ [((d.run ops).perform op).1] := by
  induction ops generalizing d with
  | nil => rfl
  | cons o ops ih =>
    show (d.perform o).1 :: (d.perform o).2.answers (ops ++ [op]) = _
    rw [ih]
    rfl

theorem length_answers (d : Document) (ops : List Operation) :
    (d.answers ops).length = ops.length := by
  induction ops generalizing d with
  | nil => rfl
  | cons op ops ih => rw [answers, List.length_cons, List.length_cons, ih]

theorem run_append (d : Document) (ops : List Operation) (op : Operation) :
    d.run (ops ++ [op]) = ((d.run ops).perform op).2 := by
  rw [run, List.foldl_append]
  rfl

/-- What becomes of the open steps back when the next operation is answered: a step
back that is made is open, and a step forth that is made is paired with the latest. -/
def pairStep (unpaired : List Nat) : (Operation × Answer) × Nat → List Nat
  | ((.undo, .stepped true), i) => i :: unpaired
  | ((.redo, .stepped true), _) => unpaired.tail
  | _ => unpaired

/-- An edit takes no step back and none forth. -/
theorem pairStep_of_isEdit {op : Operation} (h : op.isEdit = true) (unpaired : List Nat)
    (answer : Answer) (i : Nat) : pairStep unpaired ((op, answer), i) = unpaired := by
  cases op with
  | undo => exact absurd h Bool.false_ne_true
  | redo => exact absurd h Bool.false_ne_true
  | _ => rfl

/-- The positions of the steps back of a run that no step forth is paired with, the
latest one first. -/
def unpaired (d : Document) (ops : List Operation) : List Nat :=
  (ops.zip (d.answers ops)).zipIdx.foldl pairStep []

/-- What one operation more does to the open steps back depends on its answer alone. -/
theorem unpaired_append (d : Document) (ops : List Operation) (op : Operation) :
    d.unpaired (ops ++ [op]) =
      pairStep (d.unpaired ops) ((op, ((d.run ops).perform op).1), ops.length) := by
  rw [unpaired, answers_append, List.zip_append (d.length_answers ops).symm, List.zipIdx_append,
    List.foldl_append, List.length_zip, length_answers, Nat.min_self, Nat.zero_add]
  rfl

/-- **What one operation does to the trees ahead.** A step back adds the current tree,
a step forth takes the first one. Whatever else is done pairs nothing, and leaves no
tree ahead if it reports a change, or all of them. -/
theorem ahead_perform (hBound : d.history.Bounded limit) (op : Operation) :
    (op = .undo ∧ (d.perform op).1 = .stepped true ∧
        (d.perform op).2.history.ahead = d.tree :: d.history.ahead) ∨
      (op = .redo ∧ (d.perform op).1 = .stepped true ∧
        d.history.ahead = (d.perform op).2.tree :: (d.perform op).2.history.ahead) ∨
      (∀ unpaired i, pairStep unpaired ((op, (d.perform op).1), i) = unpaired) ∧
        (d.perform op).2.history.ahead =
          if (d.perform op).1.isChanged then [] else d.history.ahead := by
  by_cases hEdit : op.isEdit = true
  · refine .inr (.inr ⟨fun unpaired i => pairStep_of_isEdit hEdit .., ?_⟩)
    have hStep := editStep_perform d hEdit
    generalize d.perform op = result at hStep ⊢
    obtain ⟨answer, d'⟩ := result
    cases hStep with
    | kept hAnswer => rw [if_neg (by simp [hAnswer])]
    | changed hAnswer root description diagnostics =>
      rw [if_pos hAnswer]
      exact History.ahead_record ..
  · cases op with
    | beginBatch description => exact .inr (.inr ⟨fun _ _ => rfl, History.ahead_beginBatch ..⟩)
    | endBatch => exact .inr (.inr ⟨fun _ _ => rfl, History.ahead_endBatch _⟩)
    | undo =>
      have hPerform : d.perform .undo = (.stepped d.undo.1, d.undo.2) := rfl
      rw [hPerform]
      cases hMade : d.undo.1 with
      | true => exact .inl ⟨rfl, rfl, ahead_of_undo hBound hMade⟩
      | false =>
        -- nothing to go back to: only the batch is closed
        have hEnd : d.undo.2 = d.endBatch := eq_endBatch_of_undo (Prod.ext hMade rfl)
        rw [hEnd]
        exact .inr (.inr ⟨fun _ _ => rfl, History.ahead_endBatch _⟩)
    | redo =>
      have hPerform : d.perform .redo = (.stepped d.redo.1, d.redo.2) := rfl
      rw [hPerform]
      cases hMade : d.redo.1 with
      | true => exact .inr (.inl ⟨rfl, rfl, ahead_of_redo hBound hMade⟩)
      | false =>
        -- nothing ahead: likewise
        have hEnd : d.redo.2 = d.endBatch := eq_endBatch_of_redo (Prod.ext hMade rfl)
        rw [hEnd]
        exact .inr (.inr ⟨fun _ _ => rfl, History.ahead_endBatch _⟩)
    | _ => exact absurd rfl hEdit

/-! ## Runs -/

/-- The operation at a position of a run is a step back that was made. -/
def UndoneAt (d : Document) (ops : List Operation) (i : Nat) : Prop :=
  ops[i]? = some .undo ∧ (d.answers ops)[i]? = some (.stepped true)

/-- The operation at a position of a run reported a change. -/
def ChangedAt (d : Document) (ops : List Operation) (i : Nat) : Prop :=
  ∃ answer, (d.answers ops)[i]? = some answer ∧ answer.isChanged = true

section Runs

variable {ops : List Operation} {i j : Nat}

theorem UndoneAt.lt (h : d.UndoneAt ops i) : i < ops.length :=
  (List.getElem?_eq_some_iff.mp h.1).1

theorem ChangedAt.lt (h : d.ChangedAt ops i) : i < ops.length := by
  obtain ⟨answer, hAnswer, -⟩ := h
  rw [← d.length_answers ops]
  exact (List.getElem?_eq_some_iff.mp hAnswer).1

/-- A step back reports no change. -/
theorem ChangedAt.not_undoneAt (h : d.ChangedAt ops i) : ¬d.UndoneAt ops i := by
  rintro ⟨-, hStepped⟩
  obtain ⟨answer, hAnswer, hChanged⟩ := h
  obtain rfl := Option.some.inj (hAnswer.symm.trans hStepped)
  exact absurd hChanged Bool.false_ne_true

/-- What was a step back remains one when the run goes on. -/
theorem UndoneAt.append (h : d.UndoneAt ops i) (op : Operation) :
    d.UndoneAt (ops ++ [op]) i := by
  refine ⟨?_, ?_⟩
  · rw [List.getElem?_append_left h.lt]
    exact h.1
  · rw [answers_append, List.getElem?_append_left (by rw [length_answers]; exact h.lt)]
    exact h.2

/-- A step back that is made last stands at the end of the run. -/
theorem undoneAt_length (hAnswer : ((d.run ops).perform .undo).1 = .stepped true) :
    d.UndoneAt (ops ++ [.undo]) ops.length := by
  refine ⟨List.getElem?_concat_length, ?_⟩
  rw [answers_append, hAnswer, ← d.length_answers ops]
  exact List.getElem?_concat_length

/-- A change is one of the run so far, or the last operation. -/
theorem changedAt_append_iff {op : Operation} :
    d.ChangedAt (ops ++ [op]) i ↔
      d.ChangedAt ops i ∨ i = ops.length ∧ ((d.run ops).perform op).1.isChanged = true := by
  unfold ChangedAt
  rw [answers_append]
  rcases Nat.lt_trichotomy i ops.length with hlt | rfl | hgt
  · rw [List.getElem?_append_left (by rw [length_answers]; exact hlt)]
    simp [Nat.ne_of_lt hlt]
  · have hNone : (d.answers ops)[ops.length]? = none := by
      rw [List.getElem?_eq_none_iff, length_answers]
    rw [hNone, ← d.length_answers ops, List.getElem?_concat_length]
    simp
  · have hNone : (d.answers ops)[i]? = none := by
      rw [List.getElem?_eq_none_iff, length_answers]
      exact Nat.le_of_lt hgt
    rw [hNone, List.getElem?_eq_none (by simp [length_answers]; omega)]
    simp [Nat.ne_of_gt hgt]

/-- The open steps back of a run: the later ones, after which nothing was changed, and
those that a change has cut off. The trees ahead are those that were current when the
later ones were called. -/
structure Timeline (d : Document) (ops : List Operation) (live stale : List Nat) : Prop where
  unpaired : d.unpaired ops = live ++ stale
  undone : ∀ i ∈ d.unpaired ops, d.UndoneAt ops i
  ahead : (d.run ops).history.ahead = live.map fun i => (d.run (ops.take i)).tree
  live : ∀ i ∈ live, ∀ j, i < j → ¬d.ChangedAt ops j
  stale : ∀ i ∈ stale, ∃ j, i < j ∧ d.ChangedAt ops j

variable {live stale : List Nat}

/-- Trees of earlier times stay what they were. -/
theorem Timeline.map_tree_append (h : d.Timeline ops live stale) (op : Operation) :
    (live.map fun i => (d.run ((ops ++ [op]).take i)).tree) =
      live.map fun i => (d.run (ops.take i)).tree := by
  refine List.map_congr_left fun i hi => ?_
  have hUndone := h.undone i (h.unpaired ▸ List.mem_append_left stale hi)
  rw [List.take_append_of_le_length (Nat.le_of_lt hUndone.lt)]

/-- **One more operation** keeps the two kinds apart. -/
theorem Timeline.append (h : d.Timeline ops live stale)
    (hBound : (d.run ops).history.Bounded limit) (op : Operation) :
    ∃ live' stale', d.Timeline (ops ++ [op]) live' stale' := by
  have hAhead := ahead_perform hBound op
  have hUnpaired := d.unpaired_append ops op
  rw [h.unpaired] at hUnpaired
  have hUndone : ∀ i ∈ live ++ stale, d.UndoneAt (ops ++ [op]) i := fun i hi =>
    (h.undone i (h.unpaired ▸ hi)).append op
  have hStale : ∀ i ∈ stale, ∃ j, i < j ∧ d.ChangedAt (ops ++ [op]) j := fun i hi => by
    obtain ⟨j, hj, hChanged⟩ := h.stale i hi
    exact ⟨j, hj, changedAt_append_iff.mpr (.inl hChanged)⟩
  -- unless the operation itself reports a change, none has been added
  have hLive : ((d.run ops).perform op).1.isChanged = false →
      ∀ i ∈ live, ∀ j, i < j → ¬d.ChangedAt (ops ++ [op]) j := by
    intro hKept i hi j hj hChanged
    rcases changedAt_append_iff.mp hChanged with hChanged | ⟨-, hChanged⟩
    · exact h.live i hi j hj hChanged
    · exact Bool.false_ne_true (hKept.symm.trans hChanged)
  rcases hAhead with ⟨rfl, hAnswer, hAhead⟩ | ⟨rfl, hAnswer, hAhead⟩ | ⟨hPair, hAhead⟩
  · -- the step back is open from now on
    rw [hAnswer] at hUnpaired
    refine ⟨ops.length :: live, stale, hUnpaired, ?_, ?_, ?_, hStale⟩
    · rw [hUnpaired]
      exact List.forall_mem_cons.mpr ⟨undoneAt_length hAnswer, hUndone⟩
    · rw [run_append, hAhead, h.ahead, List.map_cons, h.map_tree_append, List.take_left' rfl]
    · refine List.forall_mem_cons.mpr ⟨fun j hj hChanged => ?_, hLive (by rw [hAnswer]; rfl)⟩
      have hLt := hChanged.lt
      rw [List.length_append, List.length_singleton] at hLt
      omega
  · -- the step forth is paired with the latest of those that were live
    rw [hAnswer] at hUnpaired
    rw [h.ahead] at hAhead
    cases live with
    | nil => exact absurd hAhead (by simp)
    | cons i live =>
      refine ⟨live, stale, hUnpaired, ?_, ?_, ?_, hStale⟩
      · rw [hUnpaired]
        exact (List.forall_mem_cons.mp hUndone).2
      · rw [run_append, ← (List.cons.inj hAhead).2]
        exact (List.cons.inj (h.map_tree_append .redo)).2.symm
      · exact (List.forall_mem_cons.mp (hLive (by rw [hAnswer]; rfl))).2
  · rw [hPair] at hUnpaired
    cases hChanged : ((d.run ops).perform op).1.isChanged with
    | false =>
      refine ⟨live, stale, hUnpaired, hUnpaired ▸ hUndone, ?_, hLive hChanged, hStale⟩
      rw [run_append, hAhead, if_neg (by simp [hChanged]), h.ahead, h.map_tree_append]
    | true =>
      refine ⟨[], live ++ stale, hUnpaired, hUnpaired ▸ hUndone, ?_, by simp, fun i hi => ?_⟩
      · rw [run_append, hAhead, if_pos hChanged]
        rfl
      · have hLt := (h.undone i (h.unpaired ▸ hi)).lt
        exact ⟨ops.length, hLt, changedAt_append_iff.mpr (.inr ⟨rfl, hChanged⟩)⟩

/-- **After a whole run** the steps back that are open can be told apart. -/
theorem exists_timeline (hBound : d.history.Bounded limit) (hNone : d.history.ahead = [])
    (ops : List Operation) : ∃ live stale, d.Timeline ops live stale := by
  induction ops using List.reverseRecOn with
  | nil => exact ⟨[], [], rfl, by simp [unpaired], hNone, by simp, by simp⟩
  | append_singleton ops op ih =>
    obtain ⟨live, stale, hTimeline⟩ := ih
    exact hTimeline.append (bounded_run hBound ops) op

/-- There is a step forth exactly if nothing was changed since the latest step back that
is still open. -/
theorem Timeline.redo_iff (h : d.Timeline ops live stale) :
    (d.run ops).redo.1 = true ↔
      ∃ i rest, d.unpaired ops = i :: rest ∧ ∀ j, i < j → ¬d.ChangedAt ops j := by
  rw [redo_fst_iff, h.ahead, ne_eq, List.map_eq_nil_iff, h.unpaired]
  cases live with
  | nil =>
    refine ⟨fun hne => absurd rfl hne, ?_⟩
    rintro ⟨i, rest, rfl, hNone⟩
    obtain ⟨j, hj, hChanged⟩ := h.stale i (List.mem_cons_self ..)
    exact absurd hChanged (hNone j hj)
  | cons i live => exact ⟨fun _ => ⟨i, _, rfl, h.live i (List.mem_cons_self ..)⟩, fun _ => by simp⟩

/-- And it leads to the tree that was current when that step back was called. -/
theorem Timeline.tree_redo (h : d.Timeline ops live stale)
    (hBound : (d.run ops).history.Bounded limit) (hMade : (d.run ops).redo.1 = true)
    {rest : List Nat} (hLatest : d.unpaired ops = i :: rest) :
    (d.run ops).redo.2.tree = (d.run (ops.take i)).tree := by
  have hAhead := ahead_of_redo hBound hMade
  rw [h.ahead] at hAhead
  cases live with
  | nil => exact absurd hAhead (by simp)
  | cons k live =>
    obtain ⟨rfl, -⟩ := List.cons.inj (h.unpaired.symm.trans hLatest)
    exact (List.cons.inj hAhead).1.symm

end Runs

/-- A document as it is opened has no tree ahead, and a history within its limit. -/
theorem bounded_opened (settings : Settings) (text? : Option (List Char)) :
    (opened settings text?).history.Bounded settings.historyLimit :=
  Reachable.bounded ⟨text?, [], rfl⟩

theorem ahead_opened (settings : Settings) (text? : Option (List Char)) :
    (opened settings text?).history.ahead = [] := by
  cases text? <;> rfl

/-- **Redoing never comes back to a tree that was given up.** After any run from the
opening of a document, a step forth is made exactly if there is a step back which none
is paired with yet, and nothing was changed since the latest of these. Then it leads
to the tree that was current when that step back was called. So after a change there
is no step forth before there is another step back. -/
theorem redo_run_opened (settings : Settings) (text? : Option (List Char))
    (ops : List Operation) :
    let d := opened settings text?
    ((d.run ops).redo.1 = true ↔
        ∃ i rest, d.unpaired ops = i :: rest ∧ ∀ j, i < j → ¬d.ChangedAt ops j) ∧
      (∀ i rest, d.unpaired ops = i :: rest → d.UndoneAt ops i ∧
        ((d.run ops).redo.1 = true → (d.run ops).redo.2.tree = (d.run (ops.take i)).tree)) ∧
      ∀ c, d.ChangedAt ops c → (∀ i, c < i → ¬d.UndoneAt ops i) →
        (d.run ops).redo.1 = false := by
  intro d
  have hBound : (d.run ops).history.Bounded settings.historyLimit :=
    bounded_run (bounded_opened settings text?) ops
  obtain ⟨live, stale, hTimeline⟩ :=
    exists_timeline (bounded_opened settings text?) (ahead_opened settings text?) ops
  refine ⟨hTimeline.redo_iff, fun i rest hLatest => ⟨?_, fun hMade => ?_⟩,
    fun c hChanged hNone => ?_⟩
  · exact hTimeline.undone i (hLatest ▸ List.mem_cons_self ..)
  · exact hTimeline.tree_redo hBound hMade hLatest
  · rw [← Bool.not_eq_true, hTimeline.redo_iff]
    rintro ⟨i, rest, hLatest, hUnchanged⟩
    have hUndone := hTimeline.undone i (hLatest ▸ List.mem_cons_self ..)
    -- the latest open step back is not the change, and it does not come after it
    have hne : i ≠ c := by
      rintro rfl
      exact hChanged.not_undoneAt hUndone
    have hlt : ¬c < i := fun hci => hNone i hci hUndone
    exact hUnchanged c (by omega) hChanged

/-- Of two steps back one is taken back; the other is open until a batch records a
change. -/
example :
    let d := opened .default (some ['a'])
    let ops := [.replaceSource ['b'], .replaceSource ['c'], .undo, .undo, .redo]
    d.unpaired ops = [2] ∧ (d.run ops).redo.2.tree = .root [.text ['c']] ∧
      (d.run (ops ++ [.beginBatch "d", .clearAll])).redo.1 = false := by
  decide +kernel

end Document

end Spintax
