import Spintax.Proofs.Mutations

/-!
# Spintax — when an edit is accepted

The check of a mutation looks at the path, at the new node and at what the path
leads to. It does not ask whether the parent takes the new node; the edit asks that
when it has gone down to the parent. So the check foretells what becomes of a
deletion or of a move, but an update or an insertion that passes it can still be
refused, by a parent of the wrong kind (`Mutation.Misplaced`).

* `Edit.exists_atChildren_iff` — what rebuilding needs;
* `Edit.exists_update_iff`, `Edit.exists_delete_iff`, `Edit.exists_insert_iff`,
  `Edit.exists_move_iff` — what an edit needs to be accepted;
* `Mutation.check_eq_ok_iff` — what the check asks for;
* `Mutation.check_foretells_apply` — when the check is right.
-/

namespace Spintax

namespace Node

/-- A node that is reached below the root is one of the children of another. -/
theorem exists_parent {root n : Node} {is : List UInt64} (h : root.descend? is = some n)
    (hne : is ≠ []) :
    ∃ init i parent siblings, is = init ++ [i] ∧ root.descend? init = some parent ∧
      parent.children? = some siblings ∧ siblings[i.toNat]? = some n := by
  rcases List.eq_nil_or_concat is with rfl | ⟨init, i, hLast⟩
  · exact absurd rfl hne
  · rw [List.concat_eq_append] at hLast
    subst hLast
    obtain ⟨parent, siblings, hRest⟩ := descend?_concat_eq_some_iff.mp h
    exact ⟨init, i, parent, siblings, rfl, hRest⟩

/-- A node that may have others below it has a list of children. -/
theorem exists_children?_of_accepts {n : Node} {child : Kind}
    (h : n.kind.accepts child = true) : ∃ cs, n.children? = some cs := by
  cases n with
  | text s => exact absurd h (by simp [Kind.accepts])
  | _ => exact ⟨_, rfl⟩

/-- In a well-formed tree a parent accepts the child that it has. -/
theorem WellFormed.accepts_of_descend? {root parent n : Node} {init : List UInt64}
    {i : UInt64} (hRoot : root.WellFormed) (hParent : root.descend? init = some parent)
    (hChild : root.descend? (init ++ [i]) = some n) : parent.kind.accepts n.kind = true := by
  obtain ⟨c, cs, hc, hChildren, hAt⟩ := descend?_concat_eq_some_iff.mp hChild
  obtain rfl := Option.some.inj (hParent.symm.trans hc)
  have hAll := wellFormed_iff_children?.mp (hRoot.descend? hParent) cs hChildren
  exact (allAccepted_iff.mp hAll n (List.mem_of_getElem? hAt)).1

end Node

theorem Outcome.exists_map_changed {edited : Except EditError Node}
    (h : ∃ root, edited = .ok root) : ∃ outcome, edited.map changed = .ok outcome := by
  obtain ⟨root, rfl⟩ := h
  exact ⟨changed root, rfl⟩

/-! ## Rebuilding -/

namespace Edit

section Rebuilding

variable {edit : Kind → List Node → Except EditError (List Node)} {is : List UInt64} {n : Node}

/-- Rebuilding succeeds exactly at a node that is there and whose children the edit
accepts. -/
theorem exists_atChildren_iff (place : Path) :
    (∃ m, atChildren place edit is n = .ok m) ↔
      ∃ c cs ds, n.descend? is = some c ∧ c.children? = some cs ∧ edit c.kind cs = .ok ds := by
  constructor
  · rintro ⟨m, hOk⟩
    obtain ⟨c, cs, ds, hDescend, hChildren, hEdit, -⟩ := atChildren_eq_ok_iff.mp hOk
    exact ⟨c, cs, ds, hDescend, hChildren, hEdit⟩
  · rintro ⟨c, cs, ds, hDescend, hChildren, hEdit⟩
    exact ⟨_, atChildren_eq_ok_iff.mpr ⟨c, cs, ds, hDescend, hChildren, hEdit, rfl⟩⟩

end Rebuilding

/-! ## The edits -/

variable {root new : Node} {path : Path}

/-- Once its checks are passed, an update below the root is a change among siblings. -/
theorem update_eq_atChildren {init : List UInt64} {i : UInt64}
    (hIndices : path.indices = .ok (init ++ [i]))
    (hFound : (root.descend? (init ++ [i])).isSome = true) (hCheck : new.firstViolation? = none) :
    update root path new = atChildren (.ofIndices init) (replaceChild i new) init root := by
  simp [update, updateWith, hIndices, Option.isNone_eq_false_iff.mpr hFound, hCheck]

/-- So is an insertion. -/
theorem insert_eq_atChildren {init : List UInt64} {i : UInt64}
    (hIndices : path.indices = .ok (init ++ [i])) (hCheck : new.firstViolation? = none) :
    insert root path new =
      atChildren (.ofIndices init) (insertChild i.toNat new) init root := by
  simp [insert, hIndices, hCheck]

/-- An update needs a node to replace and a well-formed node to put there, which is a
root in the place of the root and anywhere else is accepted by the parent. -/
theorem exists_update_iff :
    (∃ root', update root path new = .ok root') ↔
      ∃ is, path.indices = .ok is ∧ (root.descend? is).isSome = true ∧
        new.firstViolation? = none ∧ (is = [] → new.isRoot = true) ∧
        ∀ init i parent, is = init ++ [i] → root.descend? init = some parent →
          parent.kind.accepts new.kind = true := by
  constructor
  · rintro ⟨root', hOk⟩
    obtain ⟨is, hIndices, hFound, hCheck, hRoot⟩ := of_update hOk
    refine ⟨is, hIndices, hFound, hCheck, hRoot, ?_⟩
    rintro init i parent rfl hParent
    rw [update_eq_atChildren hIndices hFound hCheck] at hOk
    obtain ⟨c, cs, ds, hDescend, -, hReplace, -⟩ := atChildren_eq_ok_iff.mp hOk
    obtain rfl := Option.some.inj (hDescend.symm.trans hParent)
    exact (replaceChild_eq_ok_iff.mp hReplace).1
  · rintro ⟨is, hIndices, hFound, hCheck, hRoot, hAccepts⟩
    obtain ⟨n, hNode⟩ := Option.isSome_iff_exists.mp hFound
    by_cases hne : is = []
    · subst hne
      exact ⟨new, by simp [update, updateWith, hIndices, Node.descend?, hCheck, hRoot rfl]⟩
    · obtain ⟨init, i, parent, cs, rfl, hParent, hChildren, hChild⟩ := Node.exists_parent hNode hne
      rw [update_eq_atChildren hIndices hFound hCheck]
      exact (exists_atChildren_iff _).mpr ⟨parent, cs, _, hParent, hChildren,
        replaceChild_eq_ok_iff.mpr ⟨hAccepts init i parent rfl hParent,
          (List.getElem?_eq_some_iff.mp hChild).1, rfl⟩⟩

/-- A path that leads down has a field and a position at least. -/
theorem two_le_length_of_indices {is : List UInt64} (h : path.indices = .ok is) (hne : is ≠ []) :
    2 ≤ path.segments.length := by
  obtain ⟨segments⟩ := path
  match segments, h with
  | [], h => exact absurd (Except.ok.inj h).symm hne
  | [.index i], h => exact absurd h (by simp [Path.indices, Path.indicesOf])
  | [.field name], h =>
    by_cases hName : name = Path.childrenField <;>
      exact absurd h (by simp [Path.indices, Path.indicesOf, hName])
  | _ :: _ :: _, _ => exact Nat.le_add_left 2 _

/-- A deletion is a change among siblings too; no path below the root is too short for it. -/
theorem delete_eq_atChildren {init : List UInt64} {i : UInt64}
    (hIndices : path.indices = .ok (init ++ [i])) :
    delete root path = atChildren (.ofIndices init) (eraseChild i) init root := by
  have hLong : ¬ path.segments.length ≤ 1 :=
    Nat.not_le_of_lt (two_le_length_of_indices hIndices (List.concat_ne_nil i init))
  simp only [delete, if_neg hLong, hIndices, List.getLast?_concat, List.dropLast_concat]

/-- A deletion needs a node below the root. -/
theorem exists_delete_iff :
    (∃ root', delete root path = .ok root') ↔
      ∃ is, path.indices = .ok is ∧ is ≠ [] ∧ (root.descend? is).isSome = true := by
  constructor
  · rintro ⟨root', hOk⟩
    exact of_delete hOk
  · rintro ⟨is, hIndices, hne, hFound⟩
    obtain ⟨n, hNode⟩ := Option.isSome_iff_exists.mp hFound
    obtain ⟨init, i, parent, cs, rfl, hParent, hChildren, hChild⟩ := Node.exists_parent hNode hne
    rw [delete_eq_atChildren hIndices]
    exact (exists_atChildren_iff _).mpr ⟨parent, cs, _, hParent, hChildren,
      eraseChild_eq_ok_iff.mpr ⟨(List.getElem?_eq_some_iff.mp hChild).1, rfl⟩⟩

/-- An insertion needs a well-formed node and a parent that accepts it; how many
children there are does not matter. -/
theorem exists_insert_iff :
    (∃ root', insert root path new = .ok root') ↔
      ∃ init i parent, path.indices = .ok (init ++ [i]) ∧ new.firstViolation? = none ∧
        root.descend? init = some parent ∧ parent.kind.accepts new.kind = true := by
  constructor
  · rintro ⟨root', hOk⟩
    obtain ⟨is, hIndices, hne, -, hCheck⟩ := of_insert hOk
    obtain ⟨init, i, rfl⟩ : ∃ init i, is = init ++ [i] :=
      ⟨_, _, (List.dropLast_concat_getLast hne).symm⟩
    rw [insert_eq_atChildren hIndices hCheck] at hOk
    obtain ⟨parent, cs, ds, hParent, -, hInsert, -⟩ := atChildren_eq_ok_iff.mp hOk
    exact ⟨init, i, parent, hIndices, hCheck, hParent, (insertChild_eq_ok_iff.mp hInsert).1⟩
  · rintro ⟨init, i, parent, hIndices, hCheck, hParent, hAccepts⟩
    obtain ⟨cs, hChildren⟩ := Node.exists_children?_of_accepts hAccepts
    rw [insert_eq_atChildren hIndices hCheck]
    exact (exists_atChildren_iff _).mpr ⟨parent, cs, _, hParent, hChildren,
      insertChild_eq_ok_iff.mpr ⟨hAccepts, rfl⟩⟩

/-- A child that its parent has accepted can be moved among its siblings. -/
theorem exists_moveChild {parent : Kind} {siblings : List Node} {n : Node} {i : UInt64} (j : Nat)
    (hChild : siblings[i.toNat]? = some n) (hAccepts : parent.accepts n.kind = true) :
    ∃ moved, moveChild i j n parent siblings = .ok moved := by
  have hErase : eraseChild i parent siblings = .ok (siblings.eraseIdx i.toNat) :=
    eraseChild_eq_ok_iff.mpr ⟨(List.getElem?_eq_some_iff.mp hChild).1, rfl⟩
  rw [moveChild, hErase]
  exact ⟨_, insertChild_eq_ok_iff.mpr ⟨hAccepts, rfl⟩⟩

/-- In a well-formed tree a move needs a node to move, and nothing else. -/
theorem exists_move_iff {direction : Direction} (hRoot : root.WellFormed) :
    (∃ outcome, move root path direction = .ok outcome) ↔
      ∃ is, path.indices = .ok is ∧ (root.descend? is).isSome = true := by
  constructor
  · rintro ⟨outcome, hOk⟩
    exact of_move hOk
  · rintro ⟨is, hIndices, hFound⟩
    obtain ⟨n, hNode⟩ := Option.isSome_iff_exists.mp hFound
    by_cases hne : is = []
    · subst hne
      exact ⟨.unchanged, by simp [move, hIndices]⟩
    · obtain ⟨init, i, parent, cs, rfl, hParent, hChildren, hChild⟩ := Node.exists_parent hNode hne
      rw [move_eq_atChildren hIndices hParent hChildren hChild]
      cases direction.target? i cs.length with
      | none => exact ⟨.unchanged, rfl⟩
      | some j =>
        -- the node is a child already, so its parent accepts it again
        obtain ⟨ds, hMove⟩ :=
          exists_moveChild j.toNat hChild (hRoot.accepts_of_descend? hParent hNode)
        exact Outcome.exists_map_changed ((exists_atChildren_iff (.ofIndices init)).mpr
          ⟨parent, cs, ds, hParent, hChildren, hMove⟩)

end Edit

/-! ## The check -/

namespace Mutation

variable {root : Node} {m : Mutation}

theorem checkNode_eq_ok_iff {n : Node} : checkNode n = .ok () ↔ n.firstViolation? = none := by
  unfold checkNode
  cases n.firstViolation? <;> simp

theorem checkFound_eq_ok_iff (is : List UInt64) (path : Path) :
    checkFound root is path = .ok () ↔ (root.descend? is).isSome = true := by
  unfold checkFound
  cases (root.descend? is).isSome <;> simp

/-- What a mutation needs, as far as can be seen without asking a parent: that the node
it brings is well formed, and something to work on where the path leads. -/
def Passes (root : Node) (is : List UInt64) : Mutation → Prop
  | .update _ new =>
    new.firstViolation? = none ∧ (is = [] → new.isRoot = true) ∧ (root.descend? is).isSome = true
  | .delete _ => is ≠ [] ∧ (root.descend? is).isSome = true
  | .insert _ new =>
    new.firstViolation? = none ∧ is ≠ [] ∧ (root.descend? is.dropLast).isSome = true
  | .moveUp _ | .moveDown _ => (root.descend? is).isSome = true

/-- **What the check asks for.** -/
theorem check_eq_ok_iff :
    m.check root = .ok () ↔ ∃ is, m.path.indices = .ok is ∧ m.Passes root is := by
  unfold check
  cases hIndices : m.path.indices with
  | error e => simp
  | ok is =>
    simp only [Except.ok.injEq, exists_eq_left']
    cases m with
    | update path new =>
      rw [Passes, ← checkNode_eq_ok_iff, ← checkFound_eq_ok_iff is path]
      dsimp only
      cases checkNode new with
      | error e => simp [bind, Except.bind]
      | ok _ => cases is <;> cases new.isRoot <;> simp [bind, Except.bind]
    | delete path =>
      rw [Passes, ← checkFound_eq_ok_iff is path]
      cases is <;> simp
    | insert path new =>
      rw [Passes, ← checkNode_eq_ok_iff, ← checkFound_eq_ok_iff is.dropLast path]
      dsimp only
      cases checkNode new with
      | error e => simp [bind, Except.bind]
      | ok _ => cases is <;> simp [bind, Except.bind]
    | moveUp path => exact checkFound_eq_ok_iff is path
    | moveDown path => exact checkFound_eq_ok_iff is path

/-- The node that a mutation brings. -/
def new? : Mutation → Option Node
  | .update _ new | .insert _ new => some new
  | _ => none

/-- The mutation would put `new` below the node at the positions `is`, which is `parent`
and does not accept it. -/
structure Misplaced (root : Node) (m : Mutation) (is : List UInt64) (parent new : Node) :
    Prop where
  brings : m.new? = some new
  leads : ∃ i, m.path.indices = .ok (is ++ [i])
  found : root.descend? is = some parent
  refused : parent.kind.accepts new.kind = false

/-- Why a parent refuses a node: it has no children at all, or none of that kind. -/
def refusal (place : Path) (parent new : Node) : EditError :=
  if parent.kind.isContainer then .invalidChild parent.kind new.kind else .notAContainer place

/-- A parent that does not accept the new node refuses it, however it is put there. -/
theorem atChildren_eq_refusal {edit : Kind → List Node → Except EditError (List Node)}
    {place : Path} {is : List UInt64} {parent : Node} (new : Node)
    (hParent : root.descend? is = some parent)
    (hRefused : ∀ cs, edit parent.kind cs = .error (.invalidChild parent.kind new.kind)) :
    Edit.atChildren place edit is root = .error (refusal place parent new) := by
  refine Edit.atChildren_eq_error_iff.mpr (.inr ⟨parent, hParent, ?_⟩)
  rw [refusal, Node.isContainer_kind]
  cases parent.children? with
  | none => exact .inl ⟨rfl, rfl⟩
  | some cs => exact .inr ⟨cs, rfl, hRefused cs⟩

/-- **A misplaced node is refused**, though the mutation passes the check. -/
theorem apply_of_misplaced {is : List UInt64} {parent new : Node} (hCheck : m.check root = .ok ())
    (h : m.Misplaced root is parent new) :
    m.apply root = .error (refusal (.ofIndices is) parent new) := by
  obtain ⟨js, hIndices, hPasses⟩ := check_eq_ok_iff.mp hCheck
  obtain ⟨i, hPath⟩ := h.leads
  obtain rfl := Except.ok.inj (hIndices.symm.trans hPath)
  rw [apply, hCheck]
  cases m with
  | update path n =>
    obtain rfl : n = new := Option.some.inj h.brings
    obtain ⟨hNew, -, hFound⟩ := hPasses
    have hPath : path.indices = .ok (is ++ [i]) := hPath
    show (Edit.update root path n).map Outcome.changed = _
    rw [Edit.update_eq_atChildren hPath hFound hNew,
      atChildren_eq_refusal n h.found fun cs => by simp [Edit.replaceChild, h.refused]]
    rfl
  | insert path n =>
    obtain rfl : n = new := Option.some.inj h.brings
    have hPath : path.indices = .ok (is ++ [i]) := hPath
    show (Edit.insert root path n).map Outcome.changed = _
    rw [Edit.insert_eq_atChildren hPath hPasses.1,
      atChildren_eq_refusal n h.found fun cs => by simp [Edit.insertChild, h.refused]]
    rfl
  | delete path => exact absurd h.brings (by simp [new?])
  | moveUp path => exact absurd h.brings (by simp [new?])
  | moveDown path => exact absurd h.brings (by simp [new?])

/-- A mutation that passes the check is accepted if no parent refuses the new node. -/
theorem exists_perform_of_check (hRoot : root.ValidRoot) (hCheck : m.check root = .ok ())
    (hPlaced : ∀ is parent new, ¬m.Misplaced root is parent new) :
    ∃ outcome, m.perform root = .ok outcome := by
  obtain ⟨is, hIndices, hPasses⟩ := check_eq_ok_iff.mp hCheck
  -- a parent that refused the node would make it a misplaced one
  have hAccepts : ∀ new init i parent, m.new? = some new → is = init ++ [i] →
      root.descend? init = some parent → parent.kind.accepts new.kind = true := by
    rintro new init i parent hNew rfl hParent
    by_contra hRefused
    exact hPlaced init parent new ⟨hNew, ⟨i, hIndices⟩, hParent, by simpa using hRefused⟩
  cases m with
  | update path new =>
    obtain ⟨hNew, hIsRoot, hFound⟩ := hPasses
    exact Outcome.exists_map_changed (Edit.exists_update_iff.mpr
      ⟨is, hIndices, hFound, hNew, hIsRoot, fun init i parent => hAccepts new init i parent rfl⟩)
  | delete path =>
    exact Outcome.exists_map_changed (Edit.exists_delete_iff.mpr ⟨is, hIndices, hPasses⟩)
  | insert path new =>
    obtain ⟨hNew, hne, hFound⟩ := hPasses
    obtain ⟨init, i, rfl⟩ : ∃ init i, is = init ++ [i] :=
      ⟨_, _, (List.dropLast_concat_getLast hne).symm⟩
    rw [List.dropLast_concat] at hFound
    obtain ⟨parent, hParent⟩ := Option.isSome_iff_exists.mp hFound
    exact Outcome.exists_map_changed (Edit.exists_insert_iff.mpr
      ⟨init, i, parent, hIndices, hNew, hParent, hAccepts new init i parent rfl rfl hParent⟩)
  | moveUp path => exact (Edit.exists_move_iff hRoot.wellFormed).mpr ⟨is, hIndices, hPasses⟩
  | moveDown path => exact (Edit.exists_move_iff hRoot.wellFormed).mpr ⟨is, hIndices, hPasses⟩

/-- **When the check foretells what becomes of a mutation.** It always does if the
mutation brings no node, or the parent accepts the node that it brings. A node that
its parent does not accept passes the check, and is refused when the mutation is
applied. -/
theorem check_foretells_apply {root : Node} (hRoot : root.ValidRoot) (m : Mutation) :
    ((m.check root = .ok () ↔ ∃ outcome, m.apply root = .ok outcome) ↔
        ¬(m.check root = .ok () ∧ ∃ is parent new, m.Misplaced root is parent new)) ∧
      ∀ is parent new, m.check root = .ok () → m.Misplaced root is parent new →
        m.apply root = .error (refusal (.ofIndices is) parent new) := by
  refine ⟨⟨?_, fun hPlaced => ⟨fun hCheck => ?_, ?_⟩⟩, fun is parent new => apply_of_misplaced⟩
  · rintro hForetells ⟨hCheck, is, parent, new, hMisplaced⟩
    obtain ⟨outcome, hOk⟩ := hForetells.mp hCheck
    exact absurd (hOk.symm.trans (apply_of_misplaced hCheck hMisplaced)) (by simp)
  · obtain ⟨outcome, hOk⟩ := exists_perform_of_check hRoot hCheck
      fun is parent new hMisplaced => hPlaced ⟨hCheck, is, parent, new, hMisplaced⟩
    exact ⟨outcome, apply_eq_ok_iff.mpr hOk⟩
  · rintro ⟨outcome, hOk⟩
    exact check_of_perform (apply_eq_ok_iff.mp hOk)

/-- An option passes the check below the root, and is refused there. -/
theorem apply_of_option_below_root :
    check (.root []) (.insert (.ofIndices [0]) (.option ['a'] [])) = .ok () ∧
      apply (.root []) (.insert (.ofIndices [0]) (.option ['a'] [])) =
        .error (.invalidChild .root .option) :=
  have hCheck : check (.root []) (.insert (.ofIndices [0]) (.option ['a'] [])) = .ok () := by
    decide +kernel
  ⟨hCheck, (check_foretells_apply Node.validRoot_nil _).2 [] (.root []) (.option ['a'] []) hCheck
    ⟨rfl, ⟨0, by decide +kernel⟩, rfl, rfl⟩⟩

end Mutation

end Spintax
