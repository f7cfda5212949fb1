import Spintax.Proofs.Documents
import Spintax.Proofs.Places

/-!
# Spintax — mutations and the edits they stand for

A mutation is checked before it is performed, and the check goes its own way: it
looks at the path, at the node and at the place one after the other and builds
nothing. An edit that is called directly makes its checks on the way down. The
two refuse for different reasons, but never different things. Whatever an edit
has passed when it is accepted (`Edit.of_update`, `Edit.of_delete`,
`Edit.of_insert`, `Edit.of_move`) is all that the check asks for.

* `Edit.move_eq_atChildren` — a move below the root is a change among siblings;
* `Mutation.check_of_perform` — the check refuses no edit that would be accepted;
* `Mutation.apply_agrees_perform` — a mutation and the edit it stands for do the
  same to a tree, and to a document.
-/

namespace Spintax

/-! ## Accepted edits -/

namespace Edit

variable {root root' new : Node} {path : Path}

/-- What an accepted update has passed. -/
theorem of_update (h : update root path new = .ok root') :
    ∃ is, path.indices = .ok is ∧ (root.descend? is).isSome = true ∧
      new.firstViolation? = none ∧ (is = [] → new.isRoot = true) := by
  unfold update updateWith at h
  simp only at h
  split at h
  · exact absurd h (by simp)
  next is hIndices =>
  split at h
  · exact absurd h (by simp)
  next hFound =>
  split at h
  · exact absurd h (by simp)
  next hCheck =>
  refine ⟨is, hIndices, by simpa [Option.isSome_iff_ne_none] using hFound, hCheck, ?_⟩
  -- only the path of the root has no last position
  rintro rfl
  rw [List.getLast?_nil] at h
  simp only at h
  split at h
  · next hRoot => exact hRoot
  · exact absurd h (by simp)

/-- What an accepted deletion has passed. -/
theorem of_delete (h : delete root path = .ok root') :
    ∃ is, path.indices = .ok is ∧ is ≠ [] ∧ (root.descend? is).isSome = true := by
  unfold delete at h
  split at h
  · exact absurd h (by simp)
  split at h
  · exact absurd h (by simp)
  next is hIndices =>
  split at h
  · exact absurd h (by simp)
  next i hLast =>
  obtain ⟨c, cs, ds, hDescend, hChildren, hErase, -⟩ := atChildren_eq_ok_iff.mp h
  obtain ⟨hLt, -⟩ := eraseChild_eq_ok_iff.mp hErase
  obtain ⟨init, rfl⟩ := List.getLast?_eq_some_iff.mp hLast
  rw [List.dropLast_concat] at hDescend
  refine ⟨init ++ [i], hIndices, by simp, ?_⟩
  -- the position is one of the children, so the whole path leads to a node
  rw [Node.descend?_concat_eq_some_iff.mpr
    ⟨c, cs, hDescend, hChildren, List.getElem?_eq_getElem hLt⟩]
  rfl

/-- What an accepted insertion has passed. -/
theorem of_insert (h : insert root path new = .ok root') :
    ∃ is, path.indices = .ok is ∧ is ≠ [] ∧ (root.descend? is.dropLast).isSome = true ∧
      new.firstViolation? = none := by
  unfold insert at h
  split at h
  · exact absurd h (by simp)
  next hCheck =>
  split at h
  · exact absurd h (by simp)
  next is hIndices =>
  split at h
  · exact absurd h (by simp)
  next i hLast =>
  obtain ⟨c, cs, ds, hDescend, -⟩ := atChildren_eq_ok_iff.mp h
  refine ⟨is, hIndices, ?_, by rw [hDescend]; rfl, hCheck⟩
  rintro rfl
  exact absurd hLast (by simp)

/-- What an accepted move has passed. -/
theorem of_move {direction : Direction} {outcome : Outcome}
    (h : move root path direction = .ok outcome) :
    ∃ is, path.indices = .ok is ∧ (root.descend? is).isSome = true := by
  unfold move at h
  split at h
  · exact absurd h (by simp)
  next is hIndices =>
  refine ⟨is, hIndices, ?_⟩
  split at h
  · next hLast =>
    obtain rfl := List.getLast?_eq_none_iff.mp hLast
    rfl
  split at h
  · exact absurd h (by simp)
  · next n hNode =>
    rw [hNode]
    rfl

/-- **A move below the root is a change among siblings**, unless there is no neighbour on
that side. -/
theorem move_eq_atChildren {init : List UInt64} {i : UInt64} {parent n : Node}
    {siblings : List Node} (hIndices : path.indices = .ok (init ++ [i]))
    (hParent : root.descend? init = some parent) (hSiblings : parent.children? = some siblings)
    (hChild : siblings[i.toNat]? = some n) (direction : Direction) :
    move root path direction =
      match direction.target? i siblings.length with
      | none => .ok .unchanged
      | some j =>
        (atChildren (.ofIndices init) (moveChild i j.toNat n) init root).map .changed := by
  have hNode : root.descend? (init ++ [i]) = some n :=
    Node.descend?_concat_eq_some_iff.mpr ⟨parent, siblings, hParent, hSiblings, hChild⟩
  simp only [move, hIndices, List.getLast?_concat, hNode, List.dropLast_concat, hParent,
    Option.bind_some, hSiblings, Option.getD_some]
  cases direction.target? i siblings.length with
  | none => rfl
  | some j =>
    dsimp only
    cases atChildren (.ofIndices init) (moveChild i j.toNat n) init root <;> rfl

end Edit

/-! ## The check -/

namespace Mutation

variable {root : Node} {m : Mutation} {outcome : Outcome}

theorem checkNode_eq_ok {n : Node} (h : n.firstViolation? = none) : checkNode n = .ok () := by
  rw [checkNode, h]

theorem checkFound_eq_ok {is : List UInt64} (h : (root.descend? is).isSome = true) (path : Path) :
    checkFound root is path = .ok () := by
  rw [checkFound, if_pos h]

/-- **The check refuses nothing that would be accepted.** -/
theorem check_of_perform (h : m.perform root = .ok outcome) : m.check root = .ok () := by
  cases m with
  | update path new =>
    obtain ⟨root', hOk, -⟩ := Outcome.exists_changed h
    -- an accepted edit has found whatever the check asks for
    obtain ⟨is, hIndices, hFound, hCheck, hRoot⟩ := Edit.of_update hOk
    have hKind : (is.isEmpty && !new.isRoot) = false := by
      cases is with
      | nil => rw [hRoot rfl]; rfl
      | cons i is => rfl
    simp only [check, Mutation.path, hIndices, checkNode_eq_ok hCheck, hKind,
      checkFound_eq_ok hFound]
    rfl
  | delete path =>
    obtain ⟨root', hOk, -⟩ := Outcome.exists_changed h
    obtain ⟨is, hIndices, hne, hFound⟩ := Edit.of_delete hOk
    simp only [check, Mutation.path, hIndices, List.isEmpty_iff, hne, checkFound_eq_ok hFound]
    rfl
  | insert path new =>
    obtain ⟨root', hOk, -⟩ := Outcome.exists_changed h
    obtain ⟨is, hIndices, hne, hFound, hCheck⟩ := Edit.of_insert hOk
    simp only [check, Mutation.path, hIndices, checkNode_eq_ok hCheck, List.isEmpty_iff, hne,
      checkFound_eq_ok hFound]
    rfl
  | moveUp path =>
    obtain ⟨is, hIndices, hFound⟩ := Edit.of_move h
    simp only [check, Mutation.path, hIndices, checkFound_eq_ok hFound]
  | moveDown path =>
    obtain ⟨is, hIndices, hFound⟩ := Edit.of_move h
    simp only [check, Mutation.path, hIndices, checkFound_eq_ok hFound]

/-- The check never refuses what could be performed. -/
theorem apply_eq_ok_iff : m.apply root = .ok outcome ↔ m.perform root = .ok outcome := by
  unfold apply
  constructor
  · intro h
    split at h
    · exact h
    · exact absurd h (by simp)
  · intro h
    rw [check_of_perform h]
    exact h

/-- The edit of a document that a mutation stands for. -/
def operation : Mutation → Operation
  | .update path node => .update path node
  | .delete path => .delete path
  | .insert path node => .insert path node
  | .moveUp path => .moveUp path
  | .moveDown path => .moveDown path

end Mutation

/-! ## Documents -/

namespace Document

/-- To call an edit directly is to take on what the mutation of the same name does. -/
theorem perform_operation (d : Document) (m : Mutation) :
    d.perform m.operation = (d.commitIfOk m.name (m.perform d.tree)).map .edited id := by
  cases m <;> rfl

/-- What becomes of a document depends on an edit only as far as it is accepted. -/
theorem commitIfOk_congr {edited edited' : Except EditError Outcome}
    (h : ∀ outcome, edited = .ok outcome ↔ edited' = .ok outcome) (d : Document)
    (description : String) :
    (d.commitIfOk description edited).2 = (d.commitIfOk description edited').2 ∧
      ∀ result, (d.commitIfOk description edited).1 = .ok result ↔
        (d.commitIfOk description edited').1 = .ok result := by
  cases edited with
  | ok outcome =>
    rw [(h outcome).mp rfl]
    exact ⟨rfl, fun _ => Iff.rfl⟩
  | error e =>
    cases edited' with
    | ok outcome => exact absurd ((h outcome).mpr rfl) (by simp)
    | error e' => exact ⟨rfl, fun _ => by simp [commitIfOk]⟩

end Document

/-- **A mutation and the edit it stands for agree.** On every tree they are
accepted together, and then they give the same outcome: the same new root, or
none because nothing was to be done. So they lead a document to the same state,
history and all, and when they are accepted they answer alike. -/
theorem Mutation.apply_agrees_perform (m : Mutation) :
    (∀ root outcome, m.apply root = .ok outcome ↔ m.perform root = .ok outcome) ∧
      ∀ d : Document, (d.apply m).2 = (d.perform m.operation).2 ∧
        ∀ result, (d.apply m).1 = .ok result ↔
          (d.perform m.operation).1 = .edited (.ok result) := by
  have hOutcome : ∀ root outcome, m.apply root = .ok outcome ↔ m.perform root = .ok outcome :=
    fun _ _ => apply_eq_ok_iff
  refine ⟨hOutcome, fun d => ?_⟩
  obtain ⟨hState, hAnswer⟩ := Document.commitIfOk_congr (hOutcome d.tree) d m.name
  rw [Document.perform_operation]
  refine ⟨hState, fun result => (hAnswer result).trans ?_⟩
  rw [Prod.map_fst, Answer.edited.injEq]

end Spintax
