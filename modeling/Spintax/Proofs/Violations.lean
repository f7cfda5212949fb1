import Mathlib.Data.List.Lex
import Spintax.Proofs.ChildRules

/-!
# Spintax — the first child out of place

The check of a tree passes the children of a node from left to right. It compares each of
them with the parent before it goes down to what is below, and it stops at the first that
the parent does not accept. So whatever it has passed is in order, and the positions that
it reports lead to a child which is not. Lists of positions are compared like words: what
is above comes before what is below it, and siblings come from left to right. This is
preorder, and of all children out of place the one that is reported has the least list of
positions.

* `Node.reach?`, `Node.Pair` — the node at a list of positions, and a child there
  together with its parent;
* `Node.exists_of_firstViolation?` — one step of the check: how the children of a node
  are split by the first that is not in order;
* `Node.IsFirst` — what is reported;
* `Node.firstViolation?_finds` — the check passes exactly the trees that are in order,
  and in any other tree it reports the first child that is not.
-/

namespace Spintax

namespace Node

variable {n m parent child : Node} {place : List Nat} {i : Nat}

/-! ## Parents and children in a tree -/

/-- The node that is reached by going down through the positions. -/
def reach? : List Nat → Node → Option Node
  | [], n => some n
  | i :: is, n => (n.child? i).bind (reach? is)

/-- The way down is the same for positions of a fixed width. -/
theorem descend?_eq_reach? (is : List UInt64) (n : Node) :
    n.descend? is = n.reach? (is.map UInt64.toNat) := by
  induction is generalizing n with
  | nil => rfl
  | cons i is ih =>
    rw [descend?, List.map_cons, reach?]
    cases n.child? i.toNat with
    | none => rfl
    | some c => exact ih c

/-- In the tree, `child` stands at the positions `place`, right below `parent`. -/
def Pair (n : Node) (place : List Nat) (parent child : Node) : Prop :=
  ∃ above i, place = above ++ [i] ∧ n.reach? above = some parent ∧ parent.child? i = some child

theorem not_pair_nil : ¬ n.Pair [] parent child := by
  rintro ⟨above, i, hPlace, -⟩
  exact absurd hPlace.symm (by simp)

/-- A child in the tree is a child of its top, or it stands below one of these. -/
theorem pair_cons_iff :
    n.Pair (i :: place) parent child ↔
      ∃ m, n.child? i = some m ∧
        (place = [] ∧ parent = n ∧ child = m ∨ m.Pair place parent child) := by
  constructor
  · rintro ⟨above, j, hPlace, hParent, hChild⟩
    cases above with
    | nil =>
      obtain ⟨rfl, rfl⟩ := List.cons.inj hPlace
      obtain rfl := Option.some.inj hParent
      exact ⟨child, hChild, .inl ⟨rfl, rfl, rfl⟩⟩
    | cons k above =>
      obtain ⟨rfl, rfl⟩ := List.cons.inj hPlace
      obtain ⟨m, hm, hParent⟩ := Option.bind_eq_some_iff.mp hParent
      exact ⟨m, hm, .inr ⟨above, j, rfl, hParent, hChild⟩⟩
  · rintro ⟨m, hm, ⟨rfl, rfl, rfl⟩ | ⟨above, j, rfl, hParent, hChild⟩⟩
    · exact ⟨[], i, rfl, rfl, hm⟩
    · exact ⟨i :: above, j, rfl, Option.bind_eq_some_iff.mpr ⟨m, hm, hParent⟩, hChild⟩

/-- At one list of positions there is one child, with one parent. -/
theorem Pair.unique {parent' child' : Node} (h : n.Pair place parent child)
    (h' : n.Pair place parent' child') : parent = parent' ∧ child = child' := by
  obtain ⟨above, i, rfl, hParent, hChild⟩ := h
  obtain ⟨above', i', hPlace, hParent', hChild'⟩ := h'
  obtain ⟨rfl, hLast⟩ := List.append_inj' hPlace rfl
  obtain rfl := List.singleton_inj.mp hLast
  obtain rfl := Option.some.inj (hParent.symm.trans hParent')
  exact ⟨rfl, Option.some.inj (hChild.symm.trans hChild')⟩

/-- In a well-formed tree each child is accepted by its parent. -/
theorem WellFormed.accepts_of_pair (hn : n.WellFormed) (h : n.Pair place parent child) :
    parent.kind.accepts child.kind = true := by
  induction place generalizing n with
  | nil => exact absurd h not_pair_nil
  | cons i place ih =>
    obtain ⟨m, hm, hPair⟩ := pair_cons_iff.mp h
    obtain ⟨cs, hChildren, hAt⟩ := Option.bind_eq_some_iff.mp hm
    have hAll := wellFormed_iff_children?.mp hn cs hChildren
    obtain ⟨hAccepts, hWell⟩ := allAccepted_iff.mp hAll m (List.mem_of_getElem? hAt)
    rcases hPair with ⟨-, rfl, rfl⟩ | hBelow
    · exact hAccepts
    · exact ih hWell hBelow

/-! ## One step of the check -/

/-- The first violation of a node is the first one among its children. -/
theorem firstViolation?_eq (n : Node) :
    n.firstViolation? = n.children?.bind (firstViolationFrom? n.kind 0) := by
  cases n <;> rfl

/-- Among siblings, those before the first violation are in order; it is the next one
that is not accepted, or has the violation below it. -/
theorem exists_of_firstViolationFrom? {kind : Kind} {cs : List Node} {v : Violation}
    (h : firstViolationFrom? kind i cs = some v) :
    ∃ before c after, cs = before ++ c :: after ∧ AllAccepted kind before ∧
      (kind.accepts c.kind = false ∧ v = ⟨kind, c.kind, [i + before.length]⟩ ∨
        kind.accepts c.kind = true ∧
          ∃ w, c.firstViolation? = some w ∧ v = w.below (i + before.length)) := by
  induction cs generalizing i with
  | nil => exact absurd h (by simp [firstViolationFrom?])
  | cons c cs ih =>
    rw [firstViolationFrom?] at h
    cases hAccepts : kind.accepts c.kind with
    | false =>
      rw [hAccepts] at h
      exact ⟨[], c, cs, rfl, trivial, .inl ⟨hAccepts, (Option.some.inj h).symm⟩⟩
    | true =>
      rw [hAccepts, if_pos rfl] at h
      cases hBelow : c.firstViolation? with
      | some w =>
        rw [hBelow] at h
        exact ⟨[], c, cs, rfl, trivial, .inr ⟨hAccepts, w, hBelow, (Option.some.inj h).symm⟩⟩
      | none =>
        -- the child and all below it are in order, so it is one of those before
        rw [hBelow] at h
        obtain ⟨before, d, after, rfl, hBefore, hFound⟩ := ih h
        have hLength : i + (c :: before).length = i + 1 + before.length := by
          rw [List.length_cons]
          omega
        refine ⟨c :: before, d, after, rfl,
          ⟨hAccepts, firstViolation?_eq_none_iff.mp hBelow, hBefore⟩, ?_⟩
        rw [hLength]
        exact hFound

/-- **One step of the check**: where the children of a node are split by the first that is
not in order. -/
theorem exists_of_firstViolation? {v : Violation} (h : n.firstViolation? = some v) :
    ∃ before c after, n.children? = some (before ++ c :: after) ∧ AllAccepted n.kind before ∧
      (n.kind.accepts c.kind = false ∧ v = ⟨n.kind, c.kind, [before.length]⟩ ∨
        n.kind.accepts c.kind = true ∧
          ∃ w, c.firstViolation? = some w ∧ v = w.below before.length) := by
  rw [firstViolation?_eq] at h
  obtain ⟨cs, hChildren, hFrom⟩ := Option.bind_eq_some_iff.mp h
  obtain ⟨before, c, after, rfl, hBefore, hFound⟩ := exists_of_firstViolationFrom? hFrom
  rw [Nat.zero_add] at hFound
  exact ⟨before, c, after, hChildren, hBefore, hFound⟩

/-! ## What is reported -/

/-- `v` tells of a child that its parent does not accept, and every child before it in
preorder is accepted. -/
structure IsFirst (n : Node) (v : Violation) : Prop where
  real : ∃ parent child, n.Pair v.place parent child ∧ v.parent = parent.kind ∧
    v.child = child.kind ∧ parent.kind.accepts child.kind = false
  first : ∀ place parent child, place < v.place → n.Pair place parent child →
    parent.kind.accepts child.kind = true

section Split

variable {before after : List Node} {c : Node}
  (hChildren : n.children? = some (before ++ c :: after))

include hChildren

theorem child?_of_split : n.child? before.length = some c := by
  rw [child?, hChildren]
  simp

/-- Siblings to the left are accepted, and so is what is below them. -/
theorem accepts_of_lt (hBefore : AllAccepted n.kind before) (hi : i < before.length)
    (h : n.Pair (i :: place) parent child) : parent.kind.accepts child.kind = true := by
  obtain ⟨m, hm, hPair⟩ := pair_cons_iff.mp h
  have hMem : m ∈ before := by
    rw [child?, hChildren, Option.bind_some, List.getElem?_append_left hi] at hm
    exact List.mem_of_getElem? hm
  obtain ⟨hAccepts, hWell⟩ := allAccepted_iff.mp hBefore m hMem
  rcases hPair with ⟨-, rfl, rfl⟩ | hBelow
  · exact hAccepts
  · exact hWell.accepts_of_pair hBelow

/-- The first child that is not in order may itself be out of place. -/
theorem isFirst_here (hBefore : AllAccepted n.kind before)
    (hRefused : n.kind.accepts c.kind = false) :
    n.IsFirst ⟨n.kind, c.kind, [before.length]⟩ where
  real := ⟨n, c, pair_cons_iff.mpr ⟨c, child?_of_split hChildren, .inl ⟨rfl, rfl, rfl⟩⟩, rfl, rfl,
    hRefused⟩
  first := by
    intro place parent child hLt hPair
    cases place with
    | nil => exact absurd hPair not_pair_nil
    | cons i place =>
      rcases List.cons_lt_cons_iff.mp hLt with hi | ⟨-, hBelow⟩
      · exact accepts_of_lt hChildren hBefore hi hPair
      · -- no child comes between a position and itself
        exact absurd hBelow (List.not_lt_nil place)

/-- Otherwise it is accepted, and what is first below it is first in the whole tree. -/
theorem isFirst_below {w : Violation} (hBefore : AllAccepted n.kind before)
    (hAccepts : n.kind.accepts c.kind = true) (h : c.IsFirst w) :
    n.IsFirst (w.below before.length) where
  real := by
    obtain ⟨parent, child, hPair, hRest⟩ := h.real
    exact ⟨parent, child,
      pair_cons_iff.mpr ⟨c, child?_of_split hChildren, .inr hPair⟩, hRest⟩
  first := by
    intro place parent child hLt hPair
    cases place with
    | nil => exact absurd hPair not_pair_nil
    | cons i place =>
      rcases List.cons_lt_cons_iff.mp hLt with hi | ⟨rfl, hBelow⟩
      · exact accepts_of_lt hChildren hBefore hi hPair
      · -- the child itself, or one below it and before what is told
        obtain ⟨m, hm, hHere⟩ := pair_cons_iff.mp hPair
        obtain rfl := Option.some.inj ((child?_of_split hChildren).symm.trans hm)
        rcases hHere with ⟨-, rfl, rfl⟩ | hPair
        · exact hAccepts
        · exact h.first place parent child hBelow hPair

end Split

/-- **What is reported is real and the first**, by induction on the positions that are
reported: each step of the check takes one of them off. -/
theorem isFirst_of_firstViolation? {v : Violation} (h : n.firstViolation? = some v) :
    n.IsFirst v := by
  obtain ⟨parent, child, place⟩ := v
  induction place generalizing n with
  | nil =>
    -- every report has a position at least
    obtain ⟨before, c, after, -, -, ⟨-, hv⟩ | ⟨-, w, -, hv⟩⟩ := exists_of_firstViolation? h <;>
      exact absurd (congrArg Violation.place hv) (by simp [Violation.below])
  | cons i place ih =>
    obtain ⟨before, c, after, hChildren, hBefore, ⟨hRefused, hv⟩ | ⟨hAccepts, w, hw, hv⟩⟩ :=
      exists_of_firstViolation? h
    · rw [hv]
      exact isFirst_here hChildren hBefore hRefused
    · obtain ⟨parent', child', place'⟩ := w
      obtain ⟨rfl, rfl, hPlace⟩ := Violation.mk.inj hv
      obtain ⟨rfl, rfl⟩ := List.cons.inj hPlace
      exact isFirst_below hChildren hBefore hAccepts (ih hw)

/-- No two reports are both real and the first. -/
theorem IsFirst.unique {v w : Violation} (hv : n.IsFirst v) (hw : n.IsFirst w) : v = w := by
  obtain ⟨parent, child, hPair, hParent, hChild, hRefused⟩ := hv.real
  obtain ⟨parent', child', hPair', hParent', hChild', hRefused'⟩ := hw.real
  rcases lt_trichotomy v.place w.place with hLt | hPlace | hLt
  · exact absurd (hw.first _ _ _ hLt hPair) (by simp [hRefused])
  · -- at one place there is one child, and what is told of it are its kind and its parent's
    obtain ⟨rfl, rfl⟩ := (hPlace ▸ hPair).unique hPair'
    calc
      v = ⟨parent.kind, child.kind, v.place⟩ := by rw [← hParent, ← hChild]
      _ = w := by rw [← hParent', ← hChild', hPlace]
  · exact absurd (hv.first _ _ _ hLt hPair') (by simp [hRefused'])

/-- **The check finds the first child out of place, and only a real one.** It passes a
tree exactly if every child is accepted by its parent. What it reports otherwise is one
child that is not: the positions lead to it, its kind and its parent's are those that are
told, and every child before it in preorder is accepted. Nothing else is so described. -/
theorem firstViolation?_finds (n : Node) :
    (n.firstViolation? = none ↔
        ∀ place parent child, n.Pair place parent child →
          parent.kind.accepts child.kind = true) ∧
      ∀ v, n.firstViolation? = some v ↔ n.IsFirst v := by
  have hNone : n.firstViolation? = none ↔ ∀ place parent child, n.Pair place parent child →
      parent.kind.accepts child.kind = true := by
    constructor
    · intro h place parent child hPair
      exact (firstViolation?_eq_none_iff.mp h).accepts_of_pair hPair
    · intro hAll
      by_contra hSome
      obtain ⟨v, hv⟩ := Option.ne_none_iff_exists'.mp hSome
      obtain ⟨parent, child, hPair, -, -, hRefused⟩ := (isFirst_of_firstViolation? hv).real
      exact absurd (hAll _ _ _ hPair) (by simp [hRefused])
  refine ⟨hNone, fun v => ⟨isFirst_of_firstViolation?, fun hFirst => ?_⟩⟩
  obtain ⟨parent, child, hPair, -, -, hRefused⟩ := hFirst.real
  -- only one violation is the first, and what the check finds is the first
  cases hFound : n.firstViolation? with
  | none => exact absurd (hNone.mp hFound _ _ _ hPair) (by simp [hRefused])
  | some w => rw [(isFirst_of_firstViolation? hFound).unique hFirst]

/-- What is below the first child comes before the second child. -/
example : firstViolation? (.root [.choice [.text ['a']], .option ['b'] []]) =
    some ⟨.choice, .text, [0, 0]⟩ := by
  decide +kernel

end Node

end Spintax
