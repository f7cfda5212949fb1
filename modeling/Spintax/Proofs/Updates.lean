import Mathlib.Data.List.Basic
import Spintax.Proofs.Acceptance

/-!
# Spintax — an update is a replacement in one place

The root is replaced as a whole, any other node among the children of its parent, and
the nodes above it are rebuilt. All of this is one thing, a change of what is at the
path into the new node. The laws of a change in one place are therefore laws of
updates: the new node is found at the path, nothing else is touched, putting back what
is there changes nothing, and of two updates at one path the second one decides.

What an update asks for before it is accepted is seen at the path and above it: that
there is a node, and the kind of its parent. An update changes neither, and so it does
not stand in the way of another one at its path.

* `Edit.update_eq_ok_iff` — what an update needs and what it gives;
* `Edit.update_resolve?` — putting back the node that is there;
* `Edit.update_update` — two updates at one path;
* `Edit.update_lawful` — the laws together.
-/

namespace Spintax

namespace Edit

variable {root root' new n : Node} {path : Path} {is : List UInt64}

/-- Replacing a child is replacing the node one step further down. -/
theorem changeAt_set_eq_changeAt_concat {init : List UInt64} {i : UInt64} {parent : Node}
    {cs : List Node} (hParent : root.descend? init = some parent)
    (hChildren : parent.children? = some cs) (new : Node) :
    root.changeAt (Node.mapChildren fun _ => cs.set i.toNat new) init =
      root.changeAt (fun _ => new) (init ++ [i]) := by
  rw [Node.changeAt_append]
  exact Node.changeAt_mapChildren_congr hParent hChildren
    (List.modify_eq_set (fun _ => new) i.toNat cs).symm

/-- **An accepted update is a change of what is at the path**, into the new node. -/
theorem update_eq_changeAt (hIndices : path.indices = .ok is)
    (h : update root path new = .ok root') : root' = root.changeAt (fun _ => new) is := by
  obtain ⟨js, hJs, hFound, hCheck, hIsRoot⟩ := of_update h
  obtain rfl := Except.ok.inj (hIndices.symm.trans hJs)
  rcases List.eq_nil_or_concat' is with rfl | ⟨init, i, rfl⟩
  · -- the root is replaced as a whole
    have hOk : update root path new = .ok new := by
      simp [update, updateWith, hIndices, Node.descend?, hCheck, hIsRoot rfl]
    exact Except.ok.inj (h.symm.trans hOk)
  · rw [update_eq_atChildren hIndices hFound hCheck] at h
    obtain ⟨parent, cs, ds, hParent, hChildren, hReplace, rfl⟩ := atChildren_eq_ok_iff.mp h
    obtain ⟨-, -, rfl⟩ := replaceChild_eq_ok_iff.mp hReplace
    exact changeAt_set_eq_changeAt_concat hParent hChildren new

/-- **What an update needs and what it gives.** -/
theorem update_eq_ok_iff (hIndices : path.indices = .ok is) :
    update root path new = .ok root' ↔
      (root.descend? is).isSome = true ∧ new.firstViolation? = none ∧
        (is = [] → new.isRoot = true) ∧
        (∀ init i parent, is = init ++ [i] → root.descend? init = some parent →
          parent.kind.accepts new.kind = true) ∧
        root' = root.changeAt (fun _ => new) is := by
  constructor
  · intro h
    obtain ⟨js, hJs, hFound, hCheck, hIsRoot, hAccepts⟩ := exists_update_iff.mp ⟨root', h⟩
    obtain rfl := Except.ok.inj (hIndices.symm.trans hJs)
    exact ⟨hFound, hCheck, hIsRoot, hAccepts, update_eq_changeAt hIndices h⟩
  · rintro ⟨hFound, hCheck, hIsRoot, hAccepts, rfl⟩
    -- it is accepted, and there is only one tree that it can give then
    obtain ⟨root', hOk⟩ :=
      exists_update_iff.mpr ⟨is, hIndices, hFound, hCheck, hIsRoot, hAccepts⟩
    rw [hOk, update_eq_changeAt hIndices hOk]

/-- **Putting back the node that is there changes nothing.** It is accepted: the tree
is valid, so the node is well formed and its parent has accepted it. -/
theorem update_resolve? (hRoot : root.ValidRoot) (hFound : path.resolve? root = some n) :
    update root path n = .ok root := by
  obtain ⟨is, hIndices, hNode⟩ := Path.resolve?_eq_some_iff.mp hFound
  refine (update_eq_ok_iff hIndices).mpr ⟨by rw [hNode]; rfl, ?_, ?_, ?_, ?_⟩
  · exact Node.firstViolation?_eq_none_iff.mpr (hRoot.wellFormed.descend? hNode)
  · rintro rfl
    obtain rfl := Option.some.inj hNode
    exact hRoot.isRoot
  · rintro init i parent rfl hParent
    exact hRoot.wellFormed.accepts_of_descend? hParent hNode
  · exact (Node.changeAt_eq_self fun c hc => Option.some.inj (hNode.symm.trans hc)).symm

/-- A change does not change which nodes a parent accepts, unless the parent is at the
place of the change or below it: the parent keeps its kind. -/
theorem accepts_changeAt_iff {js : List UInt64} (h : ∀ init i, js = init ++ [i] → ¬ is <+: init)
    (f : Node → Node) (child : Kind) :
    (∀ init i parent, js = init ++ [i] → (root.changeAt f is).descend? init = some parent →
        parent.kind.accepts child = true) ↔
      ∀ init i parent, js = init ++ [i] → root.descend? init = some parent →
        parent.kind.accepts child = true := by
  constructor
  · intro hAccepts init i parent hJs hParent
    have hKind := Node.map_kind_descend?_changeAt (h init i hJs) f root
    rw [hParent] at hKind
    obtain ⟨changed, hChanged, hSame⟩ := Option.map_eq_some_iff.mp hKind
    exact hSame ▸ hAccepts init i changed hJs hChanged
  · intro hAccepts init i changed hJs hChanged
    have hKind := Node.map_kind_descend?_changeAt (h init i hJs) f root
    rw [hChanged] at hKind
    obtain ⟨parent, hParent, hSame⟩ := Option.map_eq_some_iff.mp hKind.symm
    exact hSame ▸ hAccepts init i parent hJs hParent

/-- **Of two updates at one path the second one decides**, as if there had been no
first one. -/
theorem update_update (h : update root path new = .ok root') (next root'' : Node) :
    update root' path next = .ok root'' ↔ update root path next = .ok root'' := by
  obtain ⟨is, hIndices, -⟩ := of_update h
  obtain rfl := update_eq_changeAt hIndices h
  -- the parent is further up than the place at which the first one wrote
  have hAbove : ∀ init i, is = init ++ [i] → ¬ is <+: init := by
    rintro init i rfl hPrefix
    exact absurd hPrefix.length_le (by simp)
  -- all that the second one asks for is as it was, and it covers what the first one wrote
  rw [update_eq_ok_iff hIndices, update_eq_ok_iff hIndices, accepts_changeAt_iff hAbove,
    Node.descend?_changeAt, Option.isSome_map, Node.changeAt_changeAt]
  rfl

/-- **Updates are lawful and local.** In a valid tree, at a path that leads to a node:
the new node is found where the old one was, beside the path nothing is changed, and
nodes above it keep their kind, their literal and the number of their children.
Putting back the node that is there changes nothing, and of two updates the second one
decides. -/
theorem update_lawful (hRoot : root.ValidRoot) (hFound : path.resolve? root = some n) :
    (∀ new root', update root path new = .ok root' →
      path.resolve? root' = some new ∧ path.SameOutside root root' ∧
        ∀ next root'', update root' path next = .ok root'' ↔
          update root path next = .ok root'') ∧
      update root path n = .ok root := by
  refine ⟨fun new root' h => ?_, update_resolve? hRoot hFound⟩
  obtain ⟨is, hIndices, hNode⟩ := Path.resolve?_eq_some_iff.mp hFound
  refine ⟨?_, ?_, update_update h⟩
  · rw [update_eq_changeAt hIndices h, Path.resolve?_of_indices hIndices,
      Node.descend?_changeAt, hNode]
    rfl
  · rw [update_eq_changeAt hIndices h]
    exact Path.sameOutside_changeAt hIndices _ root

/-- A tree with two options, the second of which holds the given node. -/
def besideOption (n : Node) : Node :=
  .root [.choice [.option ['a'] [], .option ['b'] [n]]]

/-- Below an option, the other option stays as it is and the one above keeps its literal;
what is put there in between leaves no trace. -/
theorem update_below_option :
    (besideOption (.text ['c'])).ValidRoot ∧
      (Path.ofIndices [0, 1, 0]).SameOutside (besideOption (.text ['c']))
        (besideOption (.choice [])) ∧
      update (besideOption (.choice [])) (.ofIndices [0, 1, 0]) (.text ['d']) =
        .ok (besideOption (.text ['d'])) := by
  have hRoot : (besideOption (.text ['c'])).ValidRoot := ⟨by decide +kernel, by decide +kernel⟩
  have hFound : (Path.ofIndices [0, 1, 0]).resolve? (besideOption (.text ['c'])) =
      some (.text ['c']) := by decide +kernel
  have hFirst : update (besideOption (.text ['c'])) (.ofIndices [0, 1, 0]) (.choice []) =
      .ok (besideOption (.choice [])) := by decide +kernel
  obtain ⟨-, hOutside, hAgain⟩ := (update_lawful hRoot hFound).1 _ _ hFirst
  exact ⟨hRoot, hOutside, (hAgain _ _).mpr (by decide +kernel)⟩

/-! ## Updates in two places -/

section Apart

variable {p q : Path} {js : List UInt64} {r s : Node}

/-- **A change beside a path does not stand in the way of an update** at the path, and is
not touched by it. -/
theorem update_changeAt_eq_ok_iff (hq : q.indices = .ok js) (h : ¬ is <+: js) (h' : ¬ js <+: is)
    (f : Node → Node) :
    update (root.changeAt f is) q s = .ok root' ↔
      ∃ before, update root q s = .ok before ∧ root' = before.changeAt f is := by
  -- what is above the parent of the path is above the path
  have hAbove : ∀ init i, js = init ++ [i] → ¬ is <+: init := by
    rintro init i rfl hPrefix
    exact h (hPrefix.trans (List.prefix_append init [i]))
  rw [update_eq_ok_iff hq, accepts_changeAt_iff hAbove, Node.descend?_changeAt_of_apart h h',
    Node.changeAt_comm_of_apart h h']
  constructor
  · rintro ⟨hFound, hCheck, hIsRoot, hAccepts, rfl⟩
    exact ⟨_, (update_eq_ok_iff hq).mpr ⟨hFound, hCheck, hIsRoot, hAccepts, rfl⟩, rfl⟩
  · rintro ⟨before, hOk, rfl⟩
    obtain ⟨hFound, hCheck, hIsRoot, hAccepts, rfl⟩ := (update_eq_ok_iff hq).mp hOk
    exact ⟨hFound, hCheck, hIsRoot, hAccepts, rfl⟩

/-- Two updates in two places: each is accepted by the tree before both, and each is seen
in the tree after them. -/
theorem exists_update_update_iff (hp : p.indices = .ok is) (hq : q.indices = .ok js)
    (h : ¬ is <+: js) (h' : ¬ js <+: is) :
    (∃ between, update root p r = .ok between ∧ update between q s = .ok root') ↔
      (∃ root₁, update root p r = .ok root₁) ∧ (∃ root₂, update root q s = .ok root₂) ∧
        root' = (root.changeAt (fun _ => r) is).changeAt (fun _ => s) js := by
  constructor
  · rintro ⟨between, hFirst, hSecond⟩
    obtain rfl := update_eq_changeAt hp hFirst
    obtain ⟨before, hAlone, -⟩ := (update_changeAt_eq_ok_iff hq h h' _).mp hSecond
    exact ⟨⟨_, hFirst⟩, ⟨before, hAlone⟩, update_eq_changeAt hq hSecond⟩
  · rintro ⟨⟨root₁, hFirst⟩, ⟨root₂, hAlone⟩, rfl⟩
    obtain rfl := update_eq_changeAt hp hFirst
    refine ⟨_, hFirst, (update_changeAt_eq_ok_iff hq h h' _).mpr ⟨root₂, hAlone, ?_⟩⟩
    rw [update_eq_changeAt hq hAlone, Node.changeAt_comm_of_apart h h']

/-- **Updates in two places commute.** At two well-formed paths, neither of which leads
through the other: one update after the other is accepted exactly if each of them is
accepted by the tree before both, and in either order they give the same tree. -/
theorem update_commutes (hp : p.indices = .ok is) (hq : q.indices = .ok js)
    (hAbove : ¬ p.segments <+: q.segments) (hBelow : ¬ q.segments <+: p.segments) :
    ((∃ between root', update root p r = .ok between ∧ update between q s = .ok root') ↔
        (∃ root₁, update root p r = .ok root₁) ∧ ∃ root₂, update root q s = .ok root₂) ∧
      ∀ root', (∃ between, update root p r = .ok between ∧ update between q s = .ok root') ↔
        ∃ between, update root q s = .ok between ∧ update between p r = .ok root' := by
  rw [Path.segments_of_indices hp, Path.segments_of_indices hq, Path.segmentsOf_prefix_iff]
    at hAbove hBelow
  constructor
  · constructor
    · rintro ⟨between, root', hBoth⟩
      obtain ⟨hFirst, hSecond, -⟩ :=
        (exists_update_update_iff hp hq hAbove hBelow).mp ⟨between, hBoth⟩
      exact ⟨hFirst, hSecond⟩
    · rintro ⟨hFirst, hSecond⟩
      obtain ⟨between, hBoth⟩ :=
        (exists_update_update_iff hp hq hAbove hBelow).mpr ⟨hFirst, hSecond, rfl⟩
      exact ⟨between, _, hBoth⟩
  · intro root'
    rw [exists_update_update_iff hp hq hAbove hBelow, exists_update_update_iff hq hp hBelow hAbove,
      Node.changeAt_comm_of_apart hAbove hBelow, and_left_comm]

/-- An option and a node in the option next to it, replaced in both orders. -/
theorem update_commutes_in_options :
    ¬ (Path.ofIndices [0, 0]).segments <+: (Path.ofIndices [0, 1, 0]).segments ∧
      ¬ (Path.ofIndices [0, 1, 0]).segments <+: (Path.ofIndices [0, 0]).segments ∧
      update (besideOption (.text ['c'])) (.ofIndices [0, 1, 0]) (.choice []) =
        .ok (besideOption (.choice [])) ∧
      ∃ root', (∃ between, update (besideOption (.text ['c'])) (.ofIndices [0, 0])
            (.option ['d'] []) = .ok between ∧
          update between (.ofIndices [0, 1, 0]) (.choice []) = .ok root') ∧
        update (besideOption (.choice [])) (.ofIndices [0, 0]) (.option ['d'] []) = .ok root' := by
  have hAbove : ¬ (Path.ofIndices [0, 0]).segments <+: (Path.ofIndices [0, 1, 0]).segments := by
    decide +kernel
  have hBelow : ¬ (Path.ofIndices [0, 1, 0]).segments <+: (Path.ofIndices [0, 0]).segments := by
    decide +kernel
  have hChoice : update (besideOption (.text ['c'])) (.ofIndices [0, 1, 0]) (.choice []) =
      .ok (besideOption (.choice [])) := by decide +kernel
  have hOption : update (besideOption (.text ['c'])) (.ofIndices [0, 0]) (.option ['d'] []) =
      .ok (.root [.choice [.option ['d'] [], .option ['b'] [.text ['c']]]]) := by decide +kernel
  have hp := Path.indices_ofIndices [0, 0]
  have hq := Path.indices_ofIndices [0, 1, 0]
  obtain ⟨between, root', hFirst⟩ :=
    (update_commutes hp hq hAbove hBelow).1.mpr ⟨⟨_, hOption⟩, ⟨_, hChoice⟩⟩
  obtain ⟨between', hOther, hSecond⟩ :=
    ((update_commutes hp hq hAbove hBelow).2 root').mp ⟨between, hFirst⟩
  obtain rfl := Except.ok.inj (hChoice.symm.trans hOther)
  exact ⟨hAbove, hBelow, hChoice, root', ⟨between, hFirst⟩, hSecond⟩

end Apart

end Edit

end Spintax
