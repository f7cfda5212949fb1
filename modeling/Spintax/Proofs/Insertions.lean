import Mathlib.Data.List.InsertIdx
import Spintax.Proofs.Acceptance

/-!
# Spintax — insertions and deletions

An insertion takes a position that is too large for the last one, a deletion refuses
it. An insertion looks at the node and asks the parent for its kind, a deletion asks for
nothing but a node that is there. Still each of the two takes back what the other one
has done. Both change the list of children at one place, and there they do to a list
what `List.insertIdx` and `List.eraseIdx` do: the position at which an insertion puts
its node is one that a deletion finds, and the node that a deletion takes out of a valid
tree is well formed and of a kind that its parent accepts.

* `Edit.insert_eq_ok_iff`, `Edit.delete_eq_ok_iff` — what the two need and what they
  give;
* `Edit.insert_eq_error_iff` — why an insertion is refused, whatever the position;
* `Edit.delete_of_insert`, `Edit.insert_of_delete` — the one after the other;
* `Edit.insert_delete_inverse` — all of it together.
-/

namespace Spintax

namespace Edit

variable {root root' new n parent : Node} {path : Path} {init : List UInt64} {i : UInt64}
  {siblings : List Node}

/-! ## What they need and what they give -/

/-- **What an insertion needs and what it gives.** -/
theorem insert_eq_ok_iff (hIndices : path.indices = .ok (init ++ [i])) :
    insert root path new = .ok root' ↔
      new.firstViolation? = none ∧ ∃ parent, root.descend? init = some parent ∧
        parent.kind.accepts new.kind = true ∧
        root' = root.changeAt
          (Node.mapChildren fun cs => cs.insertIdx (min i.toNat cs.length) new) init := by
  constructor
  · intro h
    obtain ⟨-, -, -, -, hCheck⟩ := of_insert h
    rw [insert_eq_atChildren hIndices hCheck] at h
    obtain ⟨parent, cs, ds, hParent, hChildren, hInsert, rfl⟩ := atChildren_eq_ok_iff.mp h
    obtain ⟨hAccepts, rfl⟩ := insertChild_eq_ok_iff.mp hInsert
    -- the list at the place is the only one that the change sees
    exact ⟨hCheck, parent, hParent, hAccepts,
      Node.changeAt_mapChildren_congr hParent hChildren rfl⟩
  · rintro ⟨hCheck, parent, hParent, hAccepts, rfl⟩
    obtain ⟨cs, hChildren⟩ := Node.exists_children?_of_accepts hAccepts
    rw [insert_eq_atChildren hIndices hCheck]
    exact atChildren_eq_ok_iff.mpr ⟨parent, cs, _, hParent, hChildren,
      insertChild_eq_ok_iff.mpr ⟨hAccepts, rfl⟩,
      Node.changeAt_mapChildren_congr hParent hChildren rfl⟩

/-- **What a deletion needs and what it gives.** -/
theorem delete_eq_ok_iff (hIndices : path.indices = .ok (init ++ [i])) :
    delete root path = .ok root' ↔
      (root.descend? (init ++ [i])).isSome = true ∧
        root' = root.changeAt (Node.mapChildren fun cs => cs.eraseIdx i.toNat) init := by
  rw [delete_eq_atChildren hIndices]
  constructor
  · intro h
    obtain ⟨parent, cs, ds, hParent, hChildren, hErase, rfl⟩ := atChildren_eq_ok_iff.mp h
    obtain ⟨hLt, rfl⟩ := eraseChild_eq_ok_iff.mp hErase
    refine ⟨?_, Node.changeAt_mapChildren_congr hParent hChildren rfl⟩
    exact Option.isSome_iff_exists.mpr ⟨_, Node.descend?_concat_eq_some_iff.mpr
      ⟨parent, cs, hParent, hChildren, List.getElem?_eq_getElem hLt⟩⟩
  · rintro ⟨hFound, rfl⟩
    obtain ⟨n, hNode⟩ := Option.isSome_iff_exists.mp hFound
    obtain ⟨parent, cs, hParent, hChildren, hChild⟩ := Node.descend?_concat_eq_some_iff.mp hNode
    exact atChildren_eq_ok_iff.mpr ⟨parent, cs, _, hParent, hChildren,
      eraseChild_eq_ok_iff.mpr ⟨(List.getElem?_eq_some_iff.mp hChild).1, rfl⟩,
      Node.changeAt_mapChildren_congr hParent hChildren rfl⟩

/-- **Why an insertion is refused**: the new node is not well formed, there is no
parent, or the parent does not accept it. The position is none of the reasons. -/
theorem insert_eq_error_iff (hIndices : path.indices = .ok (init ++ [i])) {e : EditError} :
    insert root path new = .error e ↔
      (∃ violation, new.firstViolation? = some violation ∧ e = .invalidStructure violation) ∨
        new.firstViolation? = none ∧
          (root.descend? init = none ∧ e = .notFound (.ofIndices init) ∨
            ∃ parent, root.descend? init = some parent ∧
              parent.kind.accepts new.kind = false ∧
              e = Mutation.refusal (.ofIndices init) parent new) := by
  cases hCheck : new.firstViolation? with
  | some violation => simp [insert, hCheck, eq_comm (a := e)]
  | none =>
    cases hParent : root.descend? init with
    | none =>
      rw [insert_eq_atChildren hIndices hCheck,
        atChildren_eq_error_iff.mpr (.inl ⟨hParent, rfl⟩)]
      simp [eq_comm (a := e)]
    | some parent =>
      cases hAccepts : parent.kind.accepts new.kind with
      | true =>
        rw [(insert_eq_ok_iff hIndices).mpr ⟨hCheck, parent, hParent, hAccepts, rfl⟩]
        simp [hAccepts]
      | false =>
        rw [insert_eq_atChildren hIndices hCheck, Mutation.atChildren_eq_refusal new hParent
          fun cs => by simp [insertChild, hAccepts]]
        simp [hAccepts, eq_comm (a := e)]

/-- Whatever is wrong with an insertion, it is not the position. -/
theorem insert_ne_indexOutOfRange (hIndices : path.indices = .ok (init ++ [i])) (index : UInt64)
    (length : Nat) : insert root path new ≠ .error (.indexOutOfRange index length) := by
  intro h
  rcases (insert_eq_error_iff hIndices).mp h with
    ⟨violation, -, hError⟩ | ⟨-, ⟨-, hError⟩ | ⟨parent, -, -, hError⟩⟩
  · exact absurd hError (by simp)
  · exact absurd hError (by simp)
  · rw [Mutation.refusal] at hError
    split at hError <;> exact absurd hError (by simp)

/-- **Where the new node comes to stand**: between the children before the position and
the others, which keep their order, or after the last of them. -/
theorem exists_siblings_of_insert (hIndices : path.indices = .ok (init ++ [i]))
    (h : insert root path new = .ok root') :
    ∃ parent left right, root.descend? init = some parent ∧
      parent.children? = some (left ++ right) ∧
      left.length = min i.toNat (left ++ right).length ∧
      root'.descend? init = some (parent.mapChildren fun _ => left ++ new :: right) := by
  obtain ⟨-, parent, hParent, hAccepts, rfl⟩ := (insert_eq_ok_iff hIndices).mp h
  obtain ⟨siblings, hSiblings⟩ := Node.exists_children?_of_accepts hAccepts
  obtain ⟨left, right, rfl, hLeft, hInserted⟩ :=
    List.exists_of_modifyTailIdx (List.cons new) (Nat.min_le_right i.toNat siblings.length)
  refine ⟨parent, left, right, hParent, hSiblings, hLeft, ?_⟩
  rw [Node.descend?_changeAt, hParent]
  refine congrArg some (Node.mapChildren_congr fun cs hCs => ?_)
  obtain rfl := Option.some.inj (hSiblings.symm.trans hCs)
  exact hInserted

/-! ## The one after the other -/

/-- **A deletion takes an insertion back**, at the position at which the node has come to
stand. -/
theorem delete_of_insert {j : UInt64} (hIndices : path.indices = .ok (init ++ [i]))
    (hParent : root.descend? init = some parent) (hSiblings : parent.children? = some siblings)
    (hj : j.toNat = min i.toNat siblings.length) (h : insert root path new = .ok root') :
    delete root' (.ofIndices (init ++ [j])) = .ok root := by
  obtain ⟨-, -, -, -, rfl⟩ := (insert_eq_ok_iff hIndices).mp h
  have hLe : j.toNat ≤ siblings.length := hj ▸ Nat.min_le_right ..
  -- the length of the list is known, so the position can be named beforehand
  have hSame : root.changeAt
      (Node.mapChildren fun cs => cs.insertIdx (min i.toNat cs.length) new) init =
        root.changeAt (Node.mapChildren fun cs => cs.insertIdx j.toNat new) init :=
    Node.changeAt_mapChildren_congr hParent hSiblings (by rw [hj])
  rw [hSame]
  refine (delete_eq_ok_iff (Path.indices_ofIndices _)).mpr ⟨?_, ?_⟩
  · -- the new node stands there
    refine Option.isSome_iff_exists.mpr ⟨new, Node.descend?_concat_eq_some_iff.mpr
      ⟨parent.mapChildren fun cs => cs.insertIdx j.toNat new, siblings.insertIdx j.toNat new,
        ?_, ?_, ?_⟩⟩
    · rw [Node.descend?_changeAt, hParent]
      rfl
    · rw [Node.children?_mapChildren, hSiblings]
      rfl
    · rw [List.getElem?_insertIdx_self, if_pos hLe]
  · exact (Node.changeAt_mapChildren_inverse hParent hSiblings
      (List.eraseIdx_insertIdx_self new)).symm

/-- **An insertion takes a deletion back.** The node that was deleted keeps the rules and
is accepted, for it stood in a valid tree. -/
theorem insert_of_delete (hRoot : root.ValidRoot) (hFound : path.resolve? root = some n)
    (h : delete root path = .ok root') : insert root' path n = .ok root := by
  obtain ⟨is, hIndices, hne, -⟩ := of_delete h
  obtain ⟨init, i, rfl⟩ : ∃ init i, is = init ++ [i] :=
    ⟨_, _, (List.dropLast_concat_getLast hne).symm⟩
  rw [Path.resolve?_of_indices hIndices] at hFound
  obtain ⟨-, rfl⟩ := (delete_eq_ok_iff hIndices).mp h
  obtain ⟨parent, siblings, hParent, hSiblings, hChild⟩ :=
    Node.descend?_concat_eq_some_iff.mp hFound
  obtain ⟨hLt, hAt⟩ := List.getElem?_eq_some_iff.mp hChild
  refine (insert_eq_ok_iff hIndices).mpr
    ⟨?_, parent.mapChildren fun cs => cs.eraseIdx i.toNat, ?_, ?_, ?_⟩
  · exact Node.firstViolation?_eq_none_iff.mpr (hRoot.wellFormed.descend? hFound)
  · rw [Node.descend?_changeAt, hParent]
    rfl
  · -- the parent has other children than before, but it is of the same kind
    rw [Node.kind_mapChildren]
    exact hRoot.wellFormed.accepts_of_descend? hParent hFound
  · refine (Node.changeAt_mapChildren_inverse hParent hSiblings ?_).symm
    -- one sibling less is still enough for the position
    have hMin : min i.toNat (siblings.eraseIdx i.toNat).length = i.toNat := by
      rw [List.length_eraseIdx_of_lt hLt]
      omega
    rw [hMin, ← hAt]
    exact List.insertIdx_eraseIdx_getElem hLt

/-- **Insertions and deletions undo each other.** In a valid tree, at a path below the
root: an accepted insertion puts the node among the children of the parent, at the
position or after the last of them, and changes nothing outside of that list; deleting
it there gives the tree back. Inserting a deleted node gives the tree back as well. And
the position is never why an insertion is refused: it is refused for every other
position with the same error. -/
theorem insert_delete_inverse (hRoot : root.ValidRoot)
    (hIndices : path.indices = .ok (init ++ [i])) :
    (∀ new root', insert root path new = .ok root' →
      ∃ parent left right, root.descend? init = some parent ∧
        parent.children? = some (left ++ right) ∧
        left.length = min i.toNat (left ++ right).length ∧
        root'.descend? init = some (parent.mapChildren fun _ => left ++ new :: right) ∧
        (Path.ofIndices init).SameOutside root root' ∧
        ∃ j : UInt64, j.toNat = left.length ∧
          delete root' (.ofIndices (init ++ [j])) = .ok root) ∧
      (∀ n root', path.resolve? root = some n → delete root path = .ok root' →
        insert root' path n = .ok root) ∧
      ∀ new, (∀ index length, insert root path new ≠ .error (.indexOutOfRange index length)) ∧
        ∀ j e, insert root path new = .error e ↔
          insert root (.ofIndices (init ++ [j])) new = .error e := by
  refine ⟨fun new root' h => ?_, fun n root' => insert_of_delete hRoot, fun new => ⟨?_, ?_⟩⟩
  · obtain ⟨parent, left, right, hParent, hSiblings, hLeft, hInserted⟩ :=
      exists_siblings_of_insert hIndices h
    have hOutside : (Path.ofIndices init).SameOutside root root' := by
      obtain ⟨-, -, -, -, rfl⟩ := (insert_eq_ok_iff hIndices).mp h
      exact Path.sameOutside_changeAt (Path.indices_ofIndices init) _ root
    -- there are no more nodes before the new one than the position says
    have hPosition : (UInt64.ofNat left.length).toNat = left.length :=
      UInt64.toNat_ofNat_of_lt'
        (Nat.lt_of_le_of_lt (hLeft ▸ Nat.min_le_left ..) i.toNat_lt_size)
    exact ⟨parent, left, right, hParent, hSiblings, hLeft, hInserted, hOutside, _, hPosition,
      delete_of_insert hIndices hParent hSiblings (hPosition.trans hLeft) h⟩
  · exact insert_ne_indexOutOfRange hIndices
  · intro j e
    rw [insert_eq_error_iff hIndices, insert_eq_error_iff (Path.indices_ofIndices _)]

/-- The largest position of all, in a choice that has one option: the new option is put
behind that one, and is deleted there. -/
theorem insert_behind_last :
    Node.ValidRoot (.root [.text ['a'], .choice [.option ['b'] []]]) ∧
      (Path.ofIndices [1, 18446744073709551615]).indices = .ok ([1] ++ [18446744073709551615]) ∧
      (Path.ofIndices [1]).SameOutside (.root [.text ['a'], .choice [.option ['b'] []]])
        (.root [.text ['a'], .choice [.option ['b'] [], .option ['c'] []]]) ∧
      ∃ j : UInt64, j.toNat = 1 ∧
        delete (.root [.text ['a'], .choice [.option ['b'] [], .option ['c'] []]])
            (.ofIndices [1, j]) =
          .ok (.root [.text ['a'], .choice [.option ['b'] []]]) := by
  have hRoot : Node.ValidRoot (.root [.text ['a'], .choice [.option ['b'] []]]) :=
    ⟨by decide +kernel, by decide +kernel⟩
  have hIndices : (Path.ofIndices [1, 18446744073709551615]).indices =
      .ok ([1] ++ [18446744073709551615]) := by decide +kernel
  have hInsert : insert (.root [.text ['a'], .choice [.option ['b'] []]])
      (.ofIndices [1, 18446744073709551615]) (.option ['c'] []) =
        .ok (.root [.text ['a'], .choice [.option ['b'] [], .option ['c'] []]]) := by
    decide +kernel
  obtain ⟨parent, left, right, hParent, hSiblings, hLeft, -, hOutside, j, hj, hDelete⟩ :=
    (insert_delete_inverse hRoot hIndices).1 _ _ hInsert
  obtain rfl : .choice [.option ['b'] []] = parent := Option.some.inj hParent
  have hOne : (left ++ right).length = 1 := congrArg List.length (Option.some.inj hSiblings).symm
  rw [hOne] at hLeft
  exact ⟨hRoot, hIndices, hOutside, j, hj.trans hLeft, hDelete⟩

end Edit

end Spintax
