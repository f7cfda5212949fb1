import Mathlib.Data.List.Basic
import Spintax.Proofs.Insertions

/-!
# Spintax — a move exchanges two neighbours

A move takes a node out and puts it back at a position that counts among the siblings
which are left. Upwards that position is the one of the sibling before it. Downwards it
is one more than the position that the node had, for the sibling after it has moved up
meanwhile. In both cases the two neighbours have changed places and all else is where it
was. Done again in the other direction, from where the node stands now, the move takes
itself back.

* `Edit.move_eq_changed`, `Edit.move_eq_insert_of_delete` — what a move gives, and the
  deletion and the insertion of which it is made;
* `Edit.Exchanged` — two trees that differ in the order of two neighbours;
* `Edit.exists_move_past` — a move past a neighbour, and back;
* `Edit.move_exchanges_neighbours` — when there is a neighbour, when there is none, and
  when there is no node to move.
-/

namespace Spintax

/-! ## Lists -/

/-- Taking an element out and putting another one in, both behind the same beginning. -/
theorem insertIdx_eraseIdx_append (left cs : List Node) (k l : Nat) (n : Node) :
    ((left ++ cs).eraseIdx (left.length + k)).insertIdx (left.length + l) n =
      left ++ (cs.eraseIdx k).insertIdx l n := by
  rw [List.eraseIdx_append_of_length_le (Nat.le_add_right ..), Nat.add_sub_cancel_left]
  exact List.modifyTailIdx_add (List.cons n) l left (cs.eraseIdx k)

/-- A position that is not the last one has two neighbours. -/
theorem exists_neighbours {cs : List Node} {k : Nat} (h : k + 1 < cs.length) :
    ∃ left a b right, cs = left ++ a :: b :: right ∧ left.length = k := by
  refine ⟨cs.take k, cs[k], cs[k + 1], cs.drop (k + 2), ?_, ?_⟩
  · rw [← List.drop_eq_getElem_cons, ← List.drop_eq_getElem_cons, List.take_append_drop]
  · rw [List.length_take]
    omega

/-- A position that has another one behind it does not wrap around. -/
theorem toNat_add_one {i : UInt64} (h : i.toNat + 1 < UInt64.size) :
    (i + 1).toNat = i.toNat + 1 := by
  rw [UInt64.toNat_add]
  exact Nat.mod_eq_of_lt h

namespace Edit

variable {root root' n parent : Node} {path : Path} {direction : Direction}
  {init : List UInt64} {i : UInt64} {siblings left right : List Node} {a b : Node}

/-! ## What a move gives -/

/-- The neighbour's position is not beyond the end of the siblings that are left. -/
theorem Direction.le_of_target? {cs : List Node} {j : UInt64} (hi : i.toNat < cs.length)
    (h : direction.target? i cs.length = some j) :
    j.toNat ≤ (cs.eraseIdx i.toNat).length := by
  rw [List.length_eraseIdx_of_lt hi]
  cases direction with
  | up =>
    have hBefore := Direction.target?_up_eq_some_iff.mp h
    omega
  | down =>
    have hBehind := (Direction.target?_down_eq_some_iff.mp h).2
    omega

section Target

variable {j : UInt64} (hRoot : root.ValidRoot) (hIndices : path.indices = .ok (init ++ [i]))
  (hParent : root.descend? init = some parent) (hSiblings : parent.children? = some siblings)
  (hChild : siblings[i.toNat]? = some n)
  (hTarget : direction.target? i siblings.length = some j)

include hRoot hIndices hParent hSiblings hChild hTarget

/-- **What a move gives** where there is a neighbour: the node is taken out and put back
in the neighbour's position. -/
theorem move_eq_changed :
    move root path direction = .ok (.changed (root.changeAt
      (Node.mapChildren fun cs => (cs.eraseIdx i.toNat).insertIdx j.toNat n) init)) := by
  have hLt : i.toNat < siblings.length := (List.getElem?_eq_some_iff.mp hChild).1
  have hNode : root.descend? (init ++ [i]) = some n :=
    Node.descend?_concat_eq_some_iff.mpr ⟨parent, siblings, hParent, hSiblings, hChild⟩
  have hMove : moveChild i j.toNat n parent.kind siblings =
      .ok ((siblings.eraseIdx i.toNat).insertIdx j.toNat n) := by
    rw [moveChild, eraseChild_eq_ok_iff.mpr ⟨hLt, rfl⟩]
    exact insertChild_eq_ok_iff.mpr ⟨hRoot.wellFormed.accepts_of_descend? hParent hNode,
      by rw [Nat.min_eq_left (Direction.le_of_target? hLt hTarget)]⟩
  have hRebuilt : atChildren (.ofIndices init) (moveChild i j.toNat n) init root = .ok
      (root.changeAt (Node.mapChildren fun cs => (cs.eraseIdx i.toNat).insertIdx j.toNat n) init) :=
    atChildren_eq_ok_iff.mpr ⟨parent, siblings, _, hParent, hSiblings, hMove,
      Node.changeAt_mapChildren_congr hParent hSiblings rfl⟩
  rw [move_eq_atChildren hIndices hParent hSiblings hChild, hTarget]
  simp only [hRebuilt]
  rfl

/-- **A move is a deletion and an insertion**: the node is deleted, and inserted again
where its neighbour stood. -/
theorem move_eq_insert_of_delete :
    ∃ without root', delete root path = .ok without ∧
      insert without (.ofIndices (init ++ [j])) n = .ok root' ∧
      move root path direction = .ok (.changed root') := by
  have hLt : i.toNat < siblings.length := (List.getElem?_eq_some_iff.mp hChild).1
  have hNode : root.descend? (init ++ [i]) = some n :=
    Node.descend?_concat_eq_some_iff.mpr ⟨parent, siblings, hParent, hSiblings, hChild⟩
  refine ⟨_, _, (delete_eq_ok_iff hIndices).mpr ⟨by rw [hNode]; rfl, rfl⟩, ?_,
    move_eq_changed hRoot hIndices hParent hSiblings hChild hTarget⟩
  refine (insert_eq_ok_iff (Path.indices_ofIndices _)).mpr
    ⟨?_, parent.mapChildren fun cs => cs.eraseIdx i.toNat, ?_, ?_, ?_⟩
  · exact Node.firstViolation?_eq_none_iff.mpr (hRoot.wellFormed.descend? hNode)
  · rw [Node.descend?_changeAt, hParent]
    rfl
  · -- one child less does not change what the parent accepts
    rw [Node.kind_mapChildren]
    exact hRoot.wellFormed.accepts_of_descend? hParent hNode
  · rw [Node.changeAt_mapChildren_mapChildren]
    refine Node.changeAt_mapChildren_congr hParent hSiblings ?_
    rw [Function.comp_apply, Nat.min_eq_left (Direction.le_of_target? hLt hTarget)]

end Target

/-! ## Two neighbours -/

/-- The way back. -/
def Direction.opposite : Direction → Direction
  | .up => .down
  | .down => .up

/-- Of two neighbours at the positions `k` and `k + 1`, the position of the one that
moves past the other. After the move it is that of the way back. -/
def Direction.start (k : Nat) : Direction → Nat
  | .up => k + 1
  | .down => k

/-- The tree `after` is the tree `before` with two neighbours exchanged: the children at
the positions `k` and `k + 1` of the node at `init`. -/
structure Exchanged (init : List UInt64) (k : Nat) (before after : Node) : Prop where
  neighbours : ∃ parent left a b right, before.descend? init = some parent ∧
    parent.children? = some (left ++ a :: b :: right) ∧ left.length = k ∧
    after.descend? init = some (parent.mapChildren fun _ => left ++ b :: a :: right)
  outside : (Path.ofIndices init).SameOutside before after

section Neighbours

variable (hRoot : root.ValidRoot) (hIndices : path.indices = .ok (init ++ [i]))
  (hParent : root.descend? init = some parent)
  (hSiblings : parent.children? = some (left ++ a :: b :: right))
  (hi : i.toNat = direction.start left.length) (hWord : left.length + 1 < UInt64.size)

include hRoot hIndices hParent hSiblings hi hWord

/-- **Past a neighbour**, whichever of the two it is that moves. -/
theorem move_eq_exchanged :
    move root path direction = .ok (.changed (root.changeAt
      (Node.mapChildren fun _ => left ++ b :: a :: right) init)) := by
  cases direction with
  | up =>
    -- the second of the two is taken out and put before the first
    have hi : i.toNat = left.length + 1 := hi
    have hChild : (left ++ a :: b :: right)[i.toNat]? = some b := by simp [hi]
    have hj : (UInt64.ofNat left.length).toNat = left.length :=
      UInt64.toNat_ofNat_of_lt (by omega)
    have hTarget : Direction.up.target? i (left ++ a :: b :: right).length =
        some (UInt64.ofNat left.length) := Direction.target?_up_eq_some_iff.mpr (by rw [hj, hi])
    rw [move_eq_changed hRoot hIndices hParent hSiblings hChild hTarget,
      Node.changeAt_mapChildren_congr hParent hSiblings]
    rw [hj, hi]
    exact insertIdx_eraseIdx_append left (a :: b :: right) 1 0 b
  | down =>
    -- the first of the two is taken out and put behind the second
    have hi : i.toNat = left.length := hi
    have hChild : (left ++ a :: b :: right)[i.toNat]? = some a := by simp [hi]
    have hj : (i + 1).toNat = left.length + 1 := by
      rw [toNat_add_one (hi ▸ hWord), hi]
    have hTarget : Direction.down.target? i (left ++ a :: b :: right).length = some (i + 1) :=
      Direction.target?_down_eq_some_iff.mpr ⟨rfl, by simp [hj]⟩
    rw [move_eq_changed hRoot hIndices hParent hSiblings hChild hTarget,
      Node.changeAt_mapChildren_congr hParent hSiblings]
    rw [hj, hi]
    exact insertIdx_eraseIdx_append left (a :: b :: right) 0 1 a

/-- **There and back**: a move past a neighbour exchanges the two, and the opposite move
of the node from where it stands now gives the tree back. -/
theorem exists_move_past :
    ∃ root', move root path direction = .ok (.changed root') ∧
      Exchanged init left.length root root' ∧
      ∀ j : UInt64, j.toNat = direction.opposite.start left.length →
        move root' (.ofIndices (init ++ [j])) direction.opposite = .ok (.changed root) := by
  have hMove := move_eq_exchanged hRoot hIndices hParent hSiblings hi hWord
  have hRoot' :
      (root.changeAt (Node.mapChildren fun _ => left ++ b :: a :: right) init).ValidRoot :=
    hRoot.move hMove
  have hParent' : (root.changeAt (Node.mapChildren fun _ => left ++ b :: a :: right) init).descend?
      init = some (parent.mapChildren fun _ => left ++ b :: a :: right) := by
    rw [Node.descend?_changeAt, hParent]
    rfl
  have hSiblings' : (parent.mapChildren fun _ => left ++ b :: a :: right).children? =
      some (left ++ b :: a :: right) := by
    rw [Node.children?_mapChildren, hSiblings]
    rfl
  refine ⟨_, hMove, ⟨⟨parent, left, a, b, right, hParent, hSiblings, rfl, hParent'⟩,
    Path.sameOutside_changeAt (Path.indices_ofIndices init) _ root⟩, fun j hj => ?_⟩
  -- the same two neighbours in the other order are exchanged again
  rw [move_eq_exchanged hRoot' (Path.indices_ofIndices _) hParent' hSiblings' hj hWord,
    Node.changeAt_mapChildren_inverse hParent hSiblings rfl]

end Neighbours

/-- Where there is no node there is nothing to move. -/
theorem move_eq_notFound {is : List UInt64} (hIndices : path.indices = .ok is)
    (hFound : root.descend? is = none) (direction : Direction) :
    move root path direction = .error (.notFound path) := by
  rcases List.eq_nil_or_concat' is with rfl | ⟨init, i, rfl⟩
  · exact absurd hFound nofun
  · simp only [move, hIndices, List.getLast?_concat, hFound]

/-- **A move is the exchange of two neighbours.** In a valid tree, at a well-formed path:
nothing is done to the root, and a path that leads nowhere is reported. A node below the
root is moved up unless it is the first of its siblings, and down unless it is the last
of them; then nothing is done. Where it is moved, it and its neighbour change places,
nothing else is changed, and moving it back gives the tree back. The sum that gives the
position behind the node is one of words and does not wrap around, for the number of
siblings is a word. -/
theorem move_exchanges_neighbours {is : List UInt64} (hRoot : root.ValidRoot)
    (hIndices : path.indices = .ok is) :
    (root.descend? is = none → ∀ direction,
        move root path direction = .error (.notFound path)) ∧
      (is = [] → ∀ direction, move root path direction = .ok .unchanged) ∧
      ∀ init i n, is = init ++ [i] → root.descend? is = some n →
        ∃ parent siblings, root.descend? init = some parent ∧
          parent.children? = some siblings ∧ siblings[i.toNat]? = some n ∧
          (siblings.length < UInt64.size → (i + 1).toNat = i.toNat + 1) ∧
          (i.toNat = 0 → move root path .up = .ok .unchanged) ∧
          (0 < i.toNat → ∃ root', move root path .up = .ok (.changed root') ∧
            Exchanged init (i.toNat - 1) root root' ∧
            ∀ j : UInt64, j.toNat + 1 = i.toNat →
              move root' (.ofIndices (init ++ [j])) .down = .ok (.changed root)) ∧
          ((i + 1).toNat = i.toNat + 1 →
            (i.toNat + 1 = siblings.length → move root path .down = .ok .unchanged) ∧
            (i.toNat + 1 < siblings.length → ∃ root', move root path .down = .ok (.changed root') ∧
              Exchanged init i.toNat root root' ∧
              move root' (.ofIndices (init ++ [i + 1])) .up = .ok (.changed root))) := by
  refine ⟨move_eq_notFound hIndices, ?_, ?_⟩
  · rintro rfl direction
    rw [move, hIndices]
    rfl
  rintro init i n rfl hNode
  obtain ⟨parent, siblings, hParent, hSiblings, hChild⟩ :=
    Node.descend?_concat_eq_some_iff.mp hNode
  have hLt : i.toNat < siblings.length := (List.getElem?_eq_some_iff.mp hChild).1
  refine ⟨parent, siblings, hParent, hSiblings, hChild, ?_, ?_, ?_, fun hNext => ⟨?_, ?_⟩⟩
  · -- the position behind the node
    intro hSize
    exact toNat_add_one (Nat.lt_of_le_of_lt hLt hSize)
  · -- up from the first position
    intro hFirst
    rw [move_eq_atChildren hIndices hParent hSiblings hChild, Direction.target?,
      if_pos (UInt64.toNat_inj.mp hFirst)]
  · -- up past the sibling before it
    intro hPositive
    have hPast : i.toNat - 1 + 1 < siblings.length := by omega
    obtain ⟨left, a, b, right, rfl, hLeft⟩ := exists_neighbours hPast
    have hi : i.toNat = Direction.up.start left.length := by
      show i.toNat = left.length + 1
      omega
    have hWord : left.length + 1 < UInt64.size := Nat.lt_of_le_of_lt hi.ge i.toNat_lt_size
    obtain ⟨root', hMove, hExchanged, hBack⟩ :=
      exists_move_past hRoot hIndices hParent hSiblings hi hWord
    refine ⟨root', hMove, hLeft ▸ hExchanged, fun j hj => hBack j ?_⟩
    show j.toNat = left.length
    omega
  · -- down from the last position
    intro hLast
    rw [move_eq_atChildren hIndices hParent hSiblings hChild, Direction.target?,
      if_neg (by omega)]
  · -- down past the sibling behind it
    intro hPast
    obtain ⟨left, a, b, right, rfl, hLeft⟩ := exists_neighbours hPast
    have hi : i.toNat = Direction.down.start left.length := hLeft.symm
    have hWord : left.length + 1 < UInt64.size := by
      rw [hLeft, ← hNext]
      exact (i + 1).toNat_lt_size
    obtain ⟨root', hMove, hExchanged, hBack⟩ :=
      exists_move_past hRoot hIndices hParent hSiblings hi hWord
    refine ⟨root', hMove, hLeft ▸ hExchanged, hBack (i + 1) ?_⟩
    show (i + 1).toNat = left.length + 1
    rw [hNext, hLeft]

/-- A text and a choice of two options, in this order. -/
def twoOptions (first second : List Char) : Node :=
  .root [.text ['a'], .choice [.option first [], .option second []]]

/-- The first of two options is moved behind the second, and back. -/
theorem move_first_of_two_options :
    (twoOptions ['b'] ['c']).ValidRoot ∧ (Path.ofIndices [1, 0]).indices = .ok ([1] ++ [0]) ∧
      move (twoOptions ['b'] ['c']) (.ofIndices [1, 0]) .down =
        .ok (.changed (twoOptions ['c'] ['b'])) ∧
      Exchanged [1] 0 (twoOptions ['b'] ['c']) (twoOptions ['c'] ['b']) ∧
      move (twoOptions ['c'] ['b']) (.ofIndices [1, 1]) .up =
        .ok (.changed (twoOptions ['b'] ['c'])) := by
  have hRoot : (twoOptions ['b'] ['c']).ValidRoot := ⟨by decide +kernel, by decide +kernel⟩
  have hIndices : (Path.ofIndices [1, 0]).indices = .ok ([1] ++ [0]) := by decide +kernel
  have hNode : (twoOptions ['b'] ['c']).descend? ([1] ++ [0]) = some (.option ['b'] []) := by
    decide +kernel
  have hMove : move (twoOptions ['b'] ['c']) (.ofIndices [1, 0]) .down =
      .ok (.changed (twoOptions ['c'] ['b'])) := by decide +kernel
  obtain ⟨parent, siblings, hParent, hSiblings, -, hNext, -, -, hDown⟩ :=
    (move_exchanges_neighbours hRoot hIndices).2.2 [1] 0 _ rfl hNode
  obtain rfl : .choice [.option ['b'] [], .option ['c'] []] = parent := Option.some.inj hParent
  obtain rfl := Option.some.inj hSiblings
  obtain ⟨root', hMoved, hExchanged, hBack⟩ := 
    (hDown (hNext (by decide))).2 (by decide)
  obtain rfl : twoOptions ['c'] ['b'] = root' :=
    Outcome.changed.inj (Except.ok.inj (hMove.symm.trans hMoved))
  exact ⟨hRoot, hIndices, hMove, hExchanged, hBack⟩

end Edit

end Spintax
