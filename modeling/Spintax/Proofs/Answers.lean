import Spintax.Proofs.Mutations

/-!
# Spintax — what the answer to an edit says

An edit is refused, has nothing to do, or changes the tree, and the answer says
which. The first two leave a document as it was, down to the open batch. A
change is one version more, and the tree that it replaced is recorded. Nothing
is to be done only by moves: those of the root and those past either end of the
siblings (`Edit.move_eq_unchanged_iff`). Whatever else is accepted changes the
document, also where the new tree is equal to the old one.

* `Edit.IsIdle`, `Operation.IsIdle` — moves with nowhere to go;
* `History.Recorded` — where the tree before a change is kept;
* `Document.perform_of_isEdit` — what each answer means for a document.
-/

namespace Spintax

/-! ## Moves with nowhere to go -/

/-- The path without positions is the empty one. -/
theorem Path.indices_eq_nil_iff {path : Path} : path.indices = .ok [] ↔ path = .root := by
  obtain ⟨segments⟩ := path
  constructor
  · intro h
    unfold indices indicesOf at h
    split at h
    · next hSegments => exact congrArg Path.mk hSegments
    · exact absurd h (by simp)
    · -- a field and a position would give a position
      split at h
      · split at h <;> exact absurd h (by simp)
      · exact absurd h (by simp)
    · split at h <;> exact absurd h (by simp)
  · rintro h
    rw [h]
    rfl

namespace Edit

/-- Whether a position is the first of so many siblings on the way up, or the last
of them on the way down. -/
def Direction.IsEnd (i : UInt64) (siblings : Nat) : Direction → Prop
  | .up => i = 0
  | .down => (i + 1).toNat = siblings

/-- A move that has nowhere to go: that of the root, or that of the first or the
last of the siblings beyond their end. -/
def IsIdle (root : Node) (path : Path) (direction : Direction) : Prop :=
  path = .root ∨
    ∃ is i parent siblings, path.indices = .ok (is ++ [i]) ∧ root.descend? is = some parent ∧
      parent.children? = some siblings ∧ direction.IsEnd i siblings.length

variable {root : Node} {path : Path} {direction : Direction} {outcome : Outcome}

/-- There is no neighbour exactly at the end of the siblings. -/
theorem Direction.target?_eq_none_iff {i : UInt64} {siblings : Nat} (h : i.toNat < siblings) :
    direction.target? i siblings = none ↔ direction.IsEnd i siblings := by
  cases direction with
  | up => simp [target?, IsEnd]
  | down =>
    -- the sum is at most the number of siblings, even if it wraps around
    have hLe : (i + 1).toNat ≤ i.toNat + 1 := by
      rw [UInt64.toNat_add]
      exact Nat.mod_le ..
    simp only [target?, IsEnd, ite_eq_right_iff, reduceCtorEq, imp_false]
    omega

/-- **An accepted move leaves the tree alone exactly if it has nowhere to go.** -/
theorem move_eq_unchanged_iff (h : move root path direction = .ok outcome) :
    outcome = .unchanged ↔ IsIdle root path direction := by
  obtain ⟨is, hIndices, hFound⟩ := of_move h
  rcases List.eq_nil_or_concat is with rfl | ⟨init, i, hLast⟩
  · rw [move, hIndices] at h
    obtain rfl := Except.ok.inj h
    exact ⟨fun _ => .inl (Path.indices_eq_nil_iff.mp hIndices), fun _ => rfl⟩
  · rw [List.concat_eq_append] at hLast
    subst hLast
    obtain ⟨n, hNode⟩ := Option.isSome_iff_exists.mp hFound
    obtain ⟨parent, siblings, hParent, hChildren, hChild⟩ :=
      Node.descend?_concat_eq_some_iff.mp hNode
    have hLt : i.toNat < siblings.length := (List.getElem?_eq_some_iff.mp hChild).1
    -- of the two ways to be idle only the second is left
    have hIdle : IsIdle root path direction ↔
        direction.target? i siblings.length = none := by
      rw [Direction.target?_eq_none_iff hLt]
      constructor
      · rintro (hRoot | ⟨is', i', parent', siblings', hIndices', hParent', hChildren', hEnd⟩)
        · rw [Path.indices_eq_nil_iff.mpr hRoot] at hIndices
          exact absurd (Except.ok.inj hIndices) (by simp)
        · have hEq := Except.ok.inj (hIndices.symm.trans hIndices')
          obtain ⟨rfl, hOne⟩ := List.append_inj' hEq rfl
          obtain rfl := List.singleton_inj.mp hOne
          obtain rfl := Option.some.inj (hParent.symm.trans hParent')
          obtain rfl := Option.some.inj (hChildren.symm.trans hChildren')
          exact hEnd
      · intro hEnd
        exact .inr ⟨init, i, parent, siblings, hIndices, hParent, hChildren, hEnd⟩
    rw [move_eq_atChildren hIndices hParent hChildren hChild] at h
    rw [hIdle]
    cases hTarget : direction.target? i siblings.length with
    | none =>
      rw [hTarget] at h
      obtain rfl := Except.ok.inj h
      simp
    | some j =>
      rw [hTarget] at h
      obtain ⟨root', -, rfl⟩ := Outcome.exists_changed h
      simp

end Edit

namespace Operation

/-- The path and the direction of a move, called directly or as a mutation. -/
def move? : Operation → Option (Path × Edit.Direction)
  | .moveUp path | .apply (.moveUp path) => some (path, .up)
  | .moveDown path | .apply (.moveDown path) => some (path, .down)
  | _ => none

/-- A move in a document with such a tree that has nowhere to go. -/
def IsIdle (op : Operation) (tree : Node) : Prop :=
  ∃ path direction, op.move? = some (path, direction) ∧ Edit.IsIdle tree path direction

/-- Whether a move has nowhere to go is seen from its path and its direction, however it
is called. -/
theorem isIdle_iff_of_move? {op : Operation} {path : Path} {direction : Edit.Direction}
    (h : op.move? = some (path, direction)) (tree : Node) :
    op.IsIdle tree ↔ Edit.IsIdle tree path direction := by
  constructor
  · rintro ⟨path', direction', hMove, hIdle⟩
    obtain ⟨rfl, rfl⟩ := Prod.mk.inj (Option.some.inj (h.symm.trans hMove))
    exact hIdle
  · intro hIdle
    exact ⟨path, direction, h, hIdle⟩

/-- Nothing but a move can have nowhere to go. -/
theorem not_isIdle_of_move? {op : Operation} (h : op.move? = none) (tree : Node) :
    ¬op.IsIdle tree := by
  rintro ⟨path, direction, hMove, -⟩
  exact absurd (h.symm.trans hMove) (by simp)

end Operation

/-! ## What is recorded -/

namespace History

/-- What has become of a history in which the tree before a change was recorded:
without a batch it lies on top of the past, and nothing can be redone; an open
batch holds it if it held no tree before. -/
def Recorded (before : History) (tree : Node) (after : History) : Prop :=
  match before.batch with
  | none =>
    (∃ description rest, after.past = ⟨tree, some description⟩ :: rest ∧ rest <+: before.past) ∧
      after.future = [] ∧ after.batch = none
  | some b =>
    after.past = before.past ∧ after.future = before.future ∧
      ∃ description, after.batch = some ⟨some (b.before.getD tree), description⟩

/-- Recording a change does what `Recorded` says, in a batch or not. -/
theorem recorded_record (h : History) (tree : Node) (description : String) :
    h.Recorded tree (h.record tree (some description)) := by
  unfold Recorded record
  cases hBatch : h.batch with
  | none =>
    refine ⟨⟨description, ?_⟩, rfl, hBatch⟩
    -- the oldest snapshot may go, but never the newest
    show ∃ rest, push h.limit ⟨tree, some description⟩ h.past = _ :: rest ∧ rest <+: h.past
    refine ⟨_, push_eq_cons .., ?_⟩
    split
    · exact List.dropLast_prefix _
    · exact List.prefix_refl _
  | some b =>
    obtain ⟨_ | first, said⟩ := b <;> exact ⟨rfl, rfl, said <|> some description, rfl⟩

end History

/-! ## Answers -/

namespace Document

variable {d : Document} {op : Operation} {description : String} {result : EditResult}

/-- An accepted edit has an outcome, and its answer says that nothing changed exactly if
the outcome is to leave the tree alone. -/
theorem exists_of_commitIfOk {edited : Except EditError Outcome}
    (h : (d.commitIfOk description edited).1 = .ok result) :
    ∃ outcome, edited = .ok outcome ∧ (result.changed = false ↔ outcome = .unchanged) := by
  cases edited with
  | error e => exact absurd h (by simp [commitIfOk])
  | ok outcome =>
    obtain rfl := Except.ok.inj h
    refine ⟨outcome, rfl, ?_⟩
    cases outcome <;> simp

/-- An edit that always gives a tree answers with a change. -/
theorem isChanged_of_commitIfOk_map {edited : Except EditError Node}
    (h : (d.commitIfOk description (edited.map .changed)).1 = .ok result) :
    result.changed = true := by
  obtain ⟨outcome, hOk, hChanged⟩ := exists_of_commitIfOk h
  obtain ⟨root, -, rfl⟩ := Outcome.exists_changed hOk
  simpa using hChanged

/-- A move answers that nothing changed exactly if it has nowhere to go. -/
theorem isChanged_of_commitIfOk_move {path : Path} {direction : Edit.Direction}
    (hMove : op.move? = some (path, direction))
    (h : (d.commitIfOk description (Edit.move d.tree path direction)).1 = .ok result) :
    result.changed = false ↔ op.IsIdle d.tree := by
  obtain ⟨outcome, hOk, hChanged⟩ := exists_of_commitIfOk h
  rw [hChanged, Edit.move_eq_unchanged_iff hOk, Operation.isIdle_iff_of_move? hMove]

/-- **An accepted edit changes nothing exactly if it is a move with nowhere to go.** -/
theorem changed_eq_false_iff (h : (d.perform op).1 = .edited (.ok result)) :
    result.changed = false ↔ op.IsIdle d.tree := by
  -- any edit but a move gives a tree whenever it is accepted
  have hOther : op.move? = none → result.changed = true →
      (result.changed = false ↔ op.IsIdle d.tree) := by
    intro hMove hChanged
    simp [hChanged, Operation.not_isIdle_of_move? hMove d.tree]
  cases op with
  | apply m =>
    have hApply : (d.commitIfOk m.name (m.perform d.tree)).1 = .ok result :=
      ((commitIfOk_congr (fun _ => Mutation.apply_eq_ok_iff) d m.name).2 result).mp
        (Answer.edited.inj h)
    cases m with
    | moveUp path => exact isChanged_of_commitIfOk_move rfl hApply
    | moveDown path => exact isChanged_of_commitIfOk_move rfl hApply
    | _ => exact hOther rfl (isChanged_of_commitIfOk_map hApply)
  | update path node => exact hOther rfl (isChanged_of_commitIfOk_map (Answer.edited.inj h))
  | updateWith path updater =>
    exact hOther rfl (isChanged_of_commitIfOk_map (Answer.edited.inj h))
  | insert path node => exact hOther rfl (isChanged_of_commitIfOk_map (Answer.edited.inj h))
  | delete path => exact hOther rfl (isChanged_of_commitIfOk_map (Answer.edited.inj h))
  | moveUp path => exact isChanged_of_commitIfOk_move rfl (Answer.edited.inj h)
  | moveDown path => exact isChanged_of_commitIfOk_move rfl (Answer.edited.inj h)
  | replaceSource text =>
    obtain rfl := Except.ok.inj (Answer.edited.inj h)
    exact hOther rfl rfl
  | clearAll =>
    obtain rfl := Except.ok.inj (Answer.edited.inj h)
    exact hOther rfl rfl
  | _ => exact absurd h (by simp [perform])

/-- Every edit is answered as one, whether it is accepted or refused. -/
theorem exists_edited (d : Document) (hOp : op.isEdit = true) :
    ∃ result, (d.perform op).1 = .edited result := by
  cases op with
  | beginBatch _ | endBatch | undo | redo => exact absurd hOp (by simp [Operation.isEdit])
  | _ => exact ⟨_, rfl⟩

/-- **What the answer to an edit says.** A refused edit and one that has nothing to
do leave the document as it was. A change raises the version by one and records
the tree that it replaced. Nothing is to be done exactly for the moves that have
nowhere to go. -/
theorem perform_of_isEdit (d : Document) {op : Operation} (hOp : op.isEdit = true) :
    ∃ answer, (d.perform op).1 = .edited answer ∧
      match answer with
      | .error _ => (d.perform op).2 = d
      | .ok result =>
        (result.changed = false → (d.perform op).2 = d) ∧
          (result.changed = true → (d.perform op).2.version = d.version + 1 ∧
            d.history.Recorded d.tree (d.perform op).2.history) ∧
          (result.changed = false ↔ op.IsIdle d.tree) := by
  obtain ⟨answer, hAnswer⟩ := d.exists_edited hOp
  have hStep := editStep_perform d hOp
  have hIdle : ∀ result, answer = .ok result →
      (result.changed = false ↔ op.IsIdle d.tree) := by
    rintro result rfl
    exact changed_eq_false_iff hAnswer
  refine ⟨answer, hAnswer, ?_⟩
  rw [hAnswer] at hStep
  -- what was done is one of two: nothing, or a change that is recorded
  generalize (d.perform op).2 = d' at hStep
  cases answer with
  | error e =>
    cases hStep with
    | kept => rfl
    | changed hChanged => exact absurd hChanged (by simp [Answer.isChanged])
  | ok result =>
    refine ⟨fun hFalse => ?_, fun hTrue => ?_, hIdle result rfl⟩
    · cases hStep with
      | kept => rfl
      | changed hChanged => exact absurd (hFalse.symm.trans hChanged) (by simp)
    · cases hStep with
      | kept hKept => exact absurd (hTrue.symm.trans hKept) (by simp)
      | changed _ root description diagnostics _ => exact ⟨rfl, History.recorded_record ..⟩

/-- The first change of a batch: the empty tree is what the batch goes back to. -/
theorem perform_of_insert_in_batch :
    ((opened .default none).beginBatch "a").history.Recorded (.root [])
      (((opened .default none).beginBatch "a").perform
        (.insert (.ofIndices [0]) (.text ['a']))).2.history := by
  obtain ⟨answer, hAnswer, h⟩ := @perform_of_isEdit ((opened .default none).beginBatch "a")
    (.insert (.ofIndices [0]) (.text ['a'])) rfl
  obtain rfl : .ok ⟨1, true⟩ = answer := Answer.edited.inj hAnswer
  exact (h.2.1 rfl).2

end Document

end Spintax
