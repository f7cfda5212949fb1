import Spintax.Edit
import Spintax.Proofs.Legible

/-!
# Spintax — edits keep the child rules

The check of a tree and the rule that it checks are the same
(`Node.firstViolation?_eq_none_iff`), so a tree that passes is a tree in which
every parent accepts its children. An edit changes the children of one node and
rebuilds those above it with the kinds that they have; where it puts a node in,
it asks the parent first. Hence an accepted edit of a valid root gives a valid
root, wherever its path leads and whatever node it brings.

* `Edit.atChildren_nil_eq_ok_iff`, `Edit.atChildren_cons_eq_ok_iff` — what
  rebuilding does when it succeeds;
* `Edit.wellFormed_atChildren` — rebuilding keeps the rules if the edit does;
* `ValidRoot.updateWith`, `ValidRoot.delete`, `ValidRoot.insert`,
  `ValidRoot.move`, `ValidRoot.apply` — the edits.
-/

namespace Spintax

namespace Node

/-! ## The check -/

/-- There is no violation among the children exactly if the parent accepts each of them
and each is well formed. -/
theorem firstViolationFrom?_eq_none_iff {parent : Kind} {ns : List Node}
    (h : ∀ n ∈ ns, n.firstViolation? = none ↔ n.WellFormed) (i : Nat) :
    firstViolationFrom? parent i ns = none ↔ AllAccepted parent ns := by
  induction ns generalizing i with
  | nil => simp [firstViolationFrom?, AllAccepted]
  | cons n ns ih =>
    rw [List.forall_mem_cons] at h
    rw [firstViolationFrom?, AllAccepted, ← h.1, ← ih h.2 (i + 1)]
    cases hAccepts : parent.accepts n.kind <;> cases n.firstViolation? <;> simp

/-- **A tree passes the check exactly when every parent accepts its children.** -/
theorem firstViolation?_eq_none_iff {n : Node} : n.firstViolation? = none ↔ n.WellFormed := by
  induction n using tree_induction with
  | text s => simp [firstViolation?, WellFormed]
  | option s ns ih => exact firstViolationFrom?_eq_none_iff ih 0
  | choice ns ih => exact firstViolationFrom?_eq_none_iff ih 0
  | root ns ih => exact firstViolationFrom?_eq_none_iff ih 0

/-- A root that passes the check. -/
structure ValidRoot (n : Node) : Prop where
  isRoot : n.isRoot = true
  checked : n.firstViolation? = none

theorem ValidRoot.wellFormed {n : Node} (h : ValidRoot n) : n.WellFormed :=
  firstViolation?_eq_none_iff.mp h.checked

theorem ValidRoot.of_wellFormed {n : Node} (hKind : n.kind = .root) (h : n.WellFormed) :
    ValidRoot n :=
  ⟨by simp [Node.isRoot, hKind], firstViolation?_eq_none_iff.mpr h⟩

theorem validRoot_nil : ValidRoot (.root []) := ⟨rfl, rfl⟩

/-! ## Children -/

/-- Whether a node is well formed is seen from its kind and its children. -/
theorem wellFormed_iff_children? {n : Node} :
    n.WellFormed ↔ ∀ cs, n.children? = some cs → AllAccepted n.kind cs := by
  cases n <;> simp [WellFormed, children?]

/-- Other children leave the kind as it is. -/
theorem withChildren?_eq_some {n m : Node} {cs : List Node}
    (h : n.withChildren? cs = some m) : m.kind = n.kind ∧ m.children? = some cs := by
  cases n with
  | text s => exact absurd h (by simp [withChildren?])
  | _ =>
    obtain rfl := Option.some.inj h
    exact ⟨rfl, rfl⟩

/-- A node is well formed with any children that it accepts. -/
theorem wellFormed_withChildren? {n m : Node} {cs : List Node}
    (h : n.withChildren? cs = some m) (hAll : AllAccepted n.kind cs) : m.WellFormed := by
  obtain ⟨hKind, hChildren⟩ := withChildren?_eq_some h
  rw [wellFormed_iff_children?, hKind, hChildren]
  rintro ds ⟨⟩
  exact hAll

/-- What is reached from a well-formed node is well formed. -/
theorem WellFormed.descend? {is : List UInt64} {n m : Node} (hn : n.WellFormed)
    (h : n.descend? is = some m) : m.WellFormed := by
  induction is generalizing n with
  | nil =>
    obtain rfl := Option.some.inj h
    exact hn
  | cons i is ih =>
    rw [Node.descend?] at h
    split at h
    · next c hc =>
      obtain ⟨cs, hChildren, hMem⟩ := Option.bind_eq_some_iff.mp hc
      have hAll := wellFormed_iff_children?.mp hn cs hChildren
      exact ih (allAccepted_iff.mp hAll c (List.mem_of_getElem? hMem)).2 h
    · exact absurd h (by simp)

end Node

namespace Edit

open Node (WellFormed AllAccepted ValidRoot)

/-! ## Rebuilding -/

section Rebuilding

variable {place : Path} {edit : Kind → List Node → Except EditError (List Node)}
  {i : UInt64} {is : List UInt64} {n m : Node}

/-- The node with other children is given whenever there is one. -/
theorem withChildren_eq_ok_iff {cs : List Node} :
    withChildren place n cs = .ok m ↔ n.withChildren? cs = some m := by
  unfold withChildren
  cases n.withChildren? cs <;> simp

/-- Where the path ends, the children there are edited. -/
theorem atChildren_nil_eq_ok_iff :
    atChildren place edit [] n = .ok m ↔
      ∃ cs ds, n.children? = some cs ∧ edit n.kind cs = .ok ds ∧ n.withChildren? ds = some m := by
  rw [atChildren]
  cases n.children? with
  | none => simp
  | some cs =>
    cases hEdit : edit n.kind cs with
    | error e => simp [hEdit]
    | ok ds => simp [hEdit, withChildren_eq_ok_iff]

/-- On the way, one child is rebuilt. -/
theorem atChildren_cons_eq_ok_iff :
    atChildren place edit (i :: is) n = .ok m ↔
      ∃ cs c d, n.children? = some cs ∧ cs[i.toNat]? = some c ∧
        atChildren place edit is c = .ok d ∧ n.withChildren? (cs.set i.toNat d) = some m := by
  rw [atChildren]
  cases n.children? with
  | none => simp
  | some cs =>
    cases hChild : cs[i.toNat]? with
    | none => simp [hChild]
    | some c =>
      cases hRebuilt : atChildren place edit is c with
      | error e => simp [hChild, hRebuilt]
      | ok d => simp [hChild, hRebuilt, withChildren_eq_ok_iff]

/-- **Rebuilding keeps the child rules**, and the kind of the node, if the edit
keeps the rules among the children that it changes. -/
theorem wellFormed_atChildren
    (hEdit : ∀ parent cs ds, AllAccepted parent cs → edit parent cs = .ok ds →
      AllAccepted parent ds)
    (hn : n.WellFormed) (h : atChildren place edit is n = .ok m) :
    m.kind = n.kind ∧ m.WellFormed := by
  induction is generalizing n m with
  | nil =>
    obtain ⟨cs, ds, hChildren, hOk, hNode⟩ := atChildren_nil_eq_ok_iff.mp h
    have hAll := Node.wellFormed_iff_children?.mp hn cs hChildren
    exact ⟨(Node.withChildren?_eq_some hNode).1,
      Node.wellFormed_withChildren? hNode (hEdit n.kind cs ds hAll hOk)⟩
  | cons i is ih =>
    obtain ⟨cs, c, d, hChildren, hChild, hOk, hNode⟩ := atChildren_cons_eq_ok_iff.mp h
    have hAll := Node.allAccepted_iff.mp (Node.wellFormed_iff_children?.mp hn cs hChildren)
    obtain ⟨hAccepts, hc⟩ := hAll c (List.mem_of_getElem? hChild)
    -- the child comes back with its kind, so it is accepted as before
    obtain ⟨hKind, hd⟩ := ih hc hOk
    refine ⟨(Node.withChildren?_eq_some hNode).1,
      Node.wellFormed_withChildren? hNode (Node.allAccepted_iff.mpr fun x hx => ?_)⟩
    rcases List.mem_or_eq_of_mem_set hx with hx | rfl
    · exact hAll x hx
    · rw [hKind]
      exact ⟨hAccepts, hd⟩

end Rebuilding

/-! ## Changes among children -/

section Children

variable {i : UInt64} {j : Nat} {new : Node} {parent : Kind} {cs ds : List Node}

/-- A replacement needs an accepted kind and a child to replace. -/
theorem replaceChild_eq_ok_iff :
    replaceChild i new parent cs = .ok ds ↔
      parent.accepts new.kind = true ∧ i.toNat < cs.length ∧ ds = cs.set i.toNat new := by
  unfold replaceChild
  by_cases hAccepts : parent.accepts new.kind = true
  · by_cases hLt : i.toNat < cs.length <;> simp [hAccepts, hLt, eq_comm]
  · simp [hAccepts]

/-- A deletion needs a child to delete. -/
theorem eraseChild_eq_ok_iff :
    eraseChild i parent cs = .ok ds ↔ i.toNat < cs.length ∧ ds = cs.eraseIdx i.toNat := by
  unfold eraseChild
  by_cases hLt : i.toNat < cs.length
  · simp [hLt, eq_comm]
  · simp [hLt]

/-- An insertion needs an accepted kind, and a position too large counts as the last. -/
theorem insertChild_eq_ok_iff :
    insertChild j new parent cs = .ok ds ↔
      parent.accepts new.kind = true ∧ ds = cs.insertIdx (min j cs.length) new := by
  unfold insertChild
  by_cases hAccepts : parent.accepts new.kind = true
  · simp [hAccepts, eq_comm]
  · simp [hAccepts]

/-- Replacing a child by an accepted node keeps the children accepted. -/
theorem allAccepted_replaceChild (hNew : new.WellFormed) (hAll : AllAccepted parent cs)
    (h : replaceChild i new parent cs = .ok ds) : AllAccepted parent ds := by
  obtain ⟨hAccepts, -, rfl⟩ := replaceChild_eq_ok_iff.mp h
  refine Node.allAccepted_iff.mpr fun x hx => ?_
  rcases List.mem_or_eq_of_mem_set hx with hx | rfl
  · exact Node.allAccepted_iff.mp hAll x hx
  · exact ⟨hAccepts, hNew⟩

/-- Deleting a child keeps the children accepted. -/
theorem allAccepted_eraseChild (hAll : AllAccepted parent cs)
    (h : eraseChild i parent cs = .ok ds) : AllAccepted parent ds := by
  obtain ⟨-, rfl⟩ := eraseChild_eq_ok_iff.mp h
  exact Node.allAccepted_iff.mpr fun x hx =>
    Node.allAccepted_iff.mp hAll x (List.mem_of_mem_eraseIdx hx)

/-- Inserting an accepted node keeps the children accepted. -/
theorem allAccepted_insertChild (hNew : new.WellFormed) (hAll : AllAccepted parent cs)
    (h : insertChild j new parent cs = .ok ds) : AllAccepted parent ds := by
  obtain ⟨hAccepts, rfl⟩ := insertChild_eq_ok_iff.mp h
  refine Node.allAccepted_iff.mpr fun x hx => ?_
  rcases (List.mem_insertIdx (Nat.min_le_right j cs.length)).mp hx with rfl | hx
  · exact ⟨hAccepts, hNew⟩
  · exact Node.allAccepted_iff.mp hAll x hx

/-- Moving a child keeps the children accepted: it is deleted and inserted. -/
theorem allAccepted_moveChild (hNew : new.WellFormed) (hAll : AllAccepted parent cs)
    (h : moveChild i j new parent cs = .ok ds) : AllAccepted parent ds := by
  unfold moveChild at h
  split at h
  · next others hErase =>
    exact allAccepted_insertChild hNew (allAccepted_eraseChild hAll hErase) h
  · exact absurd h (by simp)

end Children

end Edit

/-! ## The edits -/

/-- An edit that always gives a tree has a new tree as its outcome. -/
theorem Outcome.exists_changed {edited : Except EditError Node} {outcome : Outcome}
    (h : edited.map .changed = .ok outcome) :
    ∃ root, edited = .ok root ∧ .changed root = outcome := by
  cases edited with
  | error e => exact absurd h (by simp [Except.map])
  | ok root => exact ⟨root, rfl, Except.ok.inj h⟩

namespace Node.ValidRoot

variable {root root' new : Node} {path : Path}

/-- An edit among the children of one node gives a valid root again. -/
theorem atChildren {place : Path} {edit : Kind → List Node → Except EditError (List Node)}
    {is : List UInt64} (hRoot : ValidRoot root)
    (hEdit : ∀ parent cs ds, AllAccepted parent cs → edit parent cs = .ok ds →
      AllAccepted parent ds)
    (h : Edit.atChildren place edit is root = .ok root') : ValidRoot root' := by
  obtain ⟨hKind, hWell⟩ := Edit.wellFormed_atChildren hEdit hRoot.wellFormed h
  exact of_wellFormed (hKind.trans (beq_iff_eq.mp hRoot.isRoot)) hWell

/-- **An update keeps the root valid**, whatever the updater gives. -/
theorem updateWith {updater : Option Node → Option Node} (hRoot : ValidRoot root)
    (h : Edit.updateWith root path updater = .ok root') : ValidRoot root' := by
  unfold Edit.updateWith at h
  split at h
  · exact absurd h (by simp)
  next new hNew =>
  split at h
  · exact absurd h (by simp)
  next is hIndices =>
  split at h
  · exact absurd h (by simp)
  split at h
  · exact absurd h (by simp)
  next hCheck =>
  split at h
  · -- the root is replaced as a whole
    split at h
    · next hIsRoot =>
      obtain rfl := Except.ok.inj h
      exact ⟨hIsRoot, hCheck⟩
    · exact absurd h (by simp)
  · exact hRoot.atChildren (fun parent cs ds =>
      Edit.allAccepted_replaceChild (firstViolation?_eq_none_iff.mp hCheck)) h

theorem update (hRoot : ValidRoot root) (h : Edit.update root path new = .ok root') :
    ValidRoot root' :=
  hRoot.updateWith h

/-- A deletion keeps the root valid. -/
theorem delete (hRoot : ValidRoot root) (h : Edit.delete root path = .ok root') :
    ValidRoot root' := by
  unfold Edit.delete at h
  split at h
  · exact absurd h (by simp)
  split at h
  · exact absurd h (by simp)
  split at h
  · exact absurd h (by simp)
  · exact hRoot.atChildren (fun parent cs ds => Edit.allAccepted_eraseChild) h

/-- An insertion keeps the root valid. -/
theorem insert (hRoot : ValidRoot root) (h : Edit.insert root path new = .ok root') :
    ValidRoot root' := by
  unfold Edit.insert at h
  split at h
  · exact absurd h (by simp)
  next hCheck =>
  split at h
  · exact absurd h (by simp)
  split at h
  · exact absurd h (by simp)
  · exact hRoot.atChildren (fun parent cs ds =>
      Edit.allAccepted_insertChild (firstViolation?_eq_none_iff.mp hCheck)) h

/-- A move keeps the root valid, whether or not it has somewhere to go. -/
theorem move {direction : Edit.Direction} {outcome : Outcome} (hRoot : ValidRoot root)
    (h : Edit.move root path direction = .ok outcome) : ValidRoot (outcome.tree root) := by
  unfold Edit.move at h
  split at h
  · exact absurd h (by simp)
  next is hIndices =>
  split at h
  · obtain rfl := Except.ok.inj h
    exact hRoot
  split at h
  · exact absurd h (by simp)
  next n hNode =>
  simp only at h
  split at h
  · obtain rfl := Except.ok.inj h
    exact hRoot
  split at h
  · next moved hMoved =>
    obtain rfl := Except.ok.inj h
    -- the node that is moved comes from the tree, so it keeps the rules itself
    exact hRoot.atChildren (fun parent cs ds =>
      Edit.allAccepted_moveChild (hRoot.wellFormed.descend? hNode)) hMoved
  · exact absurd h (by simp)

/-- **An accepted mutation of a valid root gives a valid root.** -/
theorem apply {m : Mutation} {outcome : Outcome} (hRoot : ValidRoot root)
    (h : m.apply root = .ok outcome) : ValidRoot (outcome.tree root) := by
  unfold Mutation.apply at h
  split at h
  · cases m with
    | update path new =>
      obtain ⟨root', hOk, rfl⟩ := Outcome.exists_changed h
      exact hRoot.update hOk
    | delete path =>
      obtain ⟨root', hOk, rfl⟩ := Outcome.exists_changed h
      exact hRoot.delete hOk
    | insert path new =>
      obtain ⟨root', hOk, rfl⟩ := Outcome.exists_changed h
      exact hRoot.insert hOk
    | moveUp path => exact hRoot.move h
    | moveDown path => exact hRoot.move h
  · exact absurd h (by simp)

end Node.ValidRoot

end Spintax
