import Spintax.Proofs.Insertions

/-!
# Spintax — when the rules allow an edit

Each edit asks its questions on the way down: whether the path is well formed, whether
it leads to a node, whether the new node is well formed, whether the parent accepts it.
What they come to can be said of the tree beforehand, without the edit. Two more questions
are asked in the code and never answered with no. An update looks whether the position
is one of the parent's children, but it has found the node at that position before. And
when a node is put together again it is asked whether it has a place for its children,
but it had children, for otherwise there had been nothing to rebuild.

* `Edit.updateWith_ne_indexOutOfRange` — no update fails for its position;
* `Edit.rebuildElse_eq_atChildren` — rebuilding never comes to its last branch;
* `Edit.accepted_iff_allowed` — what each edit needs, and nothing else.
-/

namespace Spintax

namespace Edit

/-! ## Branches that are never reached -/

/-- Rebuilding as in `atChildren`, but for the last branch, in which a node that had
children has no place for others: what is answered there is left open. -/
def rebuildElse (last : Except EditError Node) (place : Path)
    (edit : Kind → List Node → Except EditError (List Node)) :
    List UInt64 → Node → Except EditError Node
  | [], n =>
    match n.children? with
    | none => .error (.notAContainer place)
    | some children =>
      match edit n.kind children with
      | .ok children => (n.withChildren? children).elim last .ok
      | .error e => .error e
  | i :: is, n =>
    match n.children? with
    | none => .error (.notFound place)
    | some children =>
      match children[i.toNat]? with
      | none => .error (.notFound place)
      | some c =>
        match rebuildElse last place edit is c with
        | .ok c => (n.withChildren? (children.set i.toNat c)).elim last .ok
        | .error e => .error e

/-- A node that has children is given others, whatever would be done otherwise. -/
theorem withChildren?_elim {n : Node} {cs : List Node} (h : n.children? = some cs)
    (last : Except EditError Node) (place : Path) (ds : List Node) :
    (n.withChildren? ds).elim last .ok = withChildren place n ds := by
  obtain ⟨m, hNode⟩ := exists_withChildren? h ds
  rw [withChildren_eq_ok_iff.mpr hNode, hNode]
  rfl

/-- **The last branch of rebuilding is never reached**: the result does not depend on
what is answered there. -/
theorem rebuildElse_eq_atChildren (last : Except EditError Node) (place : Path)
    (edit : Kind → List Node → Except EditError (List Node)) (is : List UInt64) (n : Node) :
    rebuildElse last place edit is n = atChildren place edit is n := by
  induction is generalizing n with
  | nil =>
    rw [rebuildElse, atChildren]
    cases hChildren : n.children? with
    | none => rfl
    | some cs =>
      cases hEdit : edit n.kind cs with
      | error e => simp only [hEdit]
      | ok ds => simp only [hEdit, withChildren?_elim hChildren last place]
  | cons i is ih =>
    rw [rebuildElse, atChildren]
    cases hChildren : n.children? with
    | none => rfl
    | some cs =>
      cases hChild : cs[i.toNat]? with
      | none => simp only [hChild]
      | some c =>
        cases hBelow : atChildren place edit is c with
        | error e => simp only [hChild, ih c, hBelow]
        | ok d => simp only [hChild, ih c, hBelow, withChildren?_elim hChildren last place]

variable {root new : Node} {path : Path}

/-- A position that is one of the children is never out of range. -/
theorem replaceChild_ne_indexOutOfRange {i : UInt64} {parent : Kind} {cs : List Node}
    (h : i.toNat < cs.length) (index : UInt64) (length : Nat) :
    replaceChild i new parent cs ≠ .error (.indexOutOfRange index length) := by
  unfold replaceChild
  by_cases hAccepts : parent.accepts new.kind = true
  · simp [hAccepts, h]
  · simp [hAccepts]

/-- **No update fails for its position**, whatever the updater: the node at that position
has been found before. -/
theorem updateWith_ne_indexOutOfRange (root : Node) (path : Path)
    (updater : Option Node → Option Node) (index : UInt64) (length : Nat) :
    updateWith root path updater ≠ .error (.indexOutOfRange index length) := by
  intro h
  -- the checks before the edit have errors of their own
  unfold updateWith at h
  split at h
  · exact absurd h (by simp)
  next new _ =>
  split at h
  · exact absurd h (by simp)
  next is _ =>
  split at h
  · exact absurd h (by simp)
  next hFound =>
  split at h
  · exact absurd h (by simp)
  split at h
  · split at h <;> exact absurd h (by simp)
  next i hLast =>
  obtain ⟨init, rfl⟩ := List.getLast?_eq_some_iff.mp hLast
  rw [List.dropLast_concat] at h
  obtain ⟨n, hNode⟩ := Option.ne_none_iff_exists'.mp (by simpa using hFound)
  obtain ⟨parent, siblings, hParent, hSiblings, hChild⟩ :=
    Node.descend?_concat_eq_some_iff.mp hNode
  rcases atChildren_eq_error_iff.mp h with ⟨-, hError⟩ | ⟨c, hc, ⟨-, hError⟩ | ⟨cs, hCs, hError⟩⟩
  · exact absurd hError (by simp)
  · exact absurd hError (by simp)
  · -- the children that are looked at are those among which the node was found
    obtain rfl := Option.some.inj (hParent.symm.trans hc)
    obtain rfl := Option.some.inj (hSiblings.symm.trans hCs)
    have hLt : i.toNat < siblings.length := (List.getElem?_eq_some_iff.mp hChild).1
    exact replaceChild_ne_indexOutOfRange hLt index length hError

/-! ## What the edits need -/

/-- **An edit is accepted exactly when the rules allow it.** In a valid tree, for every
path and every new node:

* an update needs a path that is well formed and leads to a node, and a well-formed new
  node, which is a root in the place of the root and anywhere else is of a kind that the
  parent accepts;
* a deletion needs a well-formed path that leads to a node below the root;
* an insertion needs a well-formed new node, and a well-formed path below the root whose
  parent is there and accepts the node;
* a move needs a well-formed path that is empty or leads to a node.

An update never fails for its position, and rebuilding never comes to its last branch. -/
theorem accepted_iff_allowed (hRoot : root.ValidRoot) (path : Path) (new : Node) :
    ((∃ root', update root path new = .ok root') ↔
        ∃ is, path.indices = .ok is ∧ (root.descend? is).isSome = true ∧
          new.firstViolation? = none ∧
          (is = [] ∧ new.isRoot = true ∨ ∃ init i parent, is = init ++ [i] ∧
            root.descend? init = some parent ∧ parent.kind.accepts new.kind = true)) ∧
      ((∃ root', delete root path = .ok root') ↔
        ∃ is, path.indices = .ok is ∧ is ≠ [] ∧ (root.descend? is).isSome = true) ∧
      ((∃ root', insert root path new = .ok root') ↔
        ∃ init i parent, path.indices = .ok (init ++ [i]) ∧ new.firstViolation? = none ∧
          root.descend? init = some parent ∧ parent.kind.accepts new.kind = true) ∧
      (∀ direction, (∃ outcome, move root path direction = .ok outcome) ↔
        ∃ is, path.indices = .ok is ∧ (is = [] ∨ (root.descend? is).isSome = true)) ∧
      (∀ updater index length,
        updateWith root path updater ≠ .error (.indexOutOfRange index length)) ∧
      ∀ last place edit is n, rebuildElse last place edit is n = atChildren place edit is n := by
  refine ⟨?_, exists_delete_iff, exists_insert_iff, fun direction => ?_,
    updateWith_ne_indexOutOfRange root path, rebuildElse_eq_atChildren⟩
  · -- the parent is there if the node is, so that it accepts the new one can be said of it
    rw [exists_update_iff]
    refine exists_congr fun is => and_congr_right fun _ => and_congr_right fun hFound =>
      and_congr_right fun _ => ?_
    obtain ⟨n, hNode⟩ := Option.isSome_iff_exists.mp hFound
    constructor
    · rintro ⟨hIsRoot, hAccepts⟩
      by_cases hne : is = []
      · exact .inl ⟨hne, hIsRoot hne⟩
      · obtain ⟨init, i, parent, -, hLast, hParent, -⟩ := Node.exists_parent hNode hne
        exact .inr ⟨init, i, parent, hLast, hParent, hAccepts init i parent hLast hParent⟩
    · rintro (⟨rfl, hIsRoot⟩ | ⟨init, i, parent, rfl, hParent, hAccepts⟩)
      · exact ⟨fun _ => hIsRoot, fun init i _ hNil => absurd hNil.symm (by simp)⟩
      · refine ⟨fun hNil => absurd hNil (by simp), fun init' i' parent' hLast hParent' => ?_⟩
        obtain ⟨rfl, -⟩ := List.append_inj' hLast rfl
        obtain rfl := Option.some.inj (hParent.symm.trans hParent')
        exact hAccepts
  · -- the empty path leads to the root
    rw [exists_move_iff hRoot.wellFormed]
    refine exists_congr fun is => and_congr_right fun _ => ?_
    constructor
    · exact .inr
    · rintro (rfl | hFound)
      · rfl
      · exact hFound

/-- Behind the last option of a choice one can be inserted, but there is none to update. -/
theorem allowed_behind_last :
    Node.ValidRoot (.root [.text ['a'], .choice [.option ['b'] []]]) ∧
      (∃ root', insert (.root [.text ['a'], .choice [.option ['b'] []]]) (.ofIndices [1, 5])
        (.option ['c'] []) = .ok root') ∧
      ¬ ∃ root', update (.root [.text ['a'], .choice [.option ['b'] []]]) (.ofIndices [1, 5])
        (.option ['c'] []) = .ok root' := by
  have hRoot : Node.ValidRoot (.root [.text ['a'], .choice [.option ['b'] []]]) :=
    ⟨by decide +kernel, by decide +kernel⟩
  obtain ⟨hUpdate, -, hInsert, -⟩ :=
    accepted_iff_allowed hRoot (.ofIndices [1, 5]) (.option ['c'] [])
  refine ⟨hRoot, hInsert.mpr ?_, fun hOk => ?_⟩
  · exact ⟨[1], 5, .choice [.option ['b'] []], Path.indices_ofIndices [1, 5], by decide +kernel,
      by decide +kernel, by decide +kernel⟩
  · obtain ⟨is, hIndices, hFound, -⟩ := hUpdate.mp hOk
    obtain rfl : [1, 5] = is := Except.ok.inj ((Path.indices_ofIndices [1, 5]).symm.trans hIndices)
    exact absurd hFound (by decide +kernel)

end Edit

end Spintax
