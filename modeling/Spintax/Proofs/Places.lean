import Spintax.Proofs.ChildRules

/-!
# Spintax — changing a tree in one place

Every edit goes down to one node, changes that node or its list of children, and puts
the nodes on the way back together. Said as a function on trees this is
`Node.changeAt`. It obeys the laws of reading and writing at a place: what was written
is read back, writing what is there changes nothing, a second change at the place is
made on top of the first one, and elsewhere the tree is what it was. Nothing of the way
in which an edit rebuilds a tree is left in these laws, and what holds of an edit
follows from them.

* `Node.descend?_changeAt`, `Node.changeAt_eq_self`, `Node.changeAt_changeAt` — the
  place itself;
* `Node.descend?_changeAt_of_apart`, `Node.alike_changeAt_cons` — beside the place and
  above it;
* `Node.changeAt_comm_of_apart` — two places beside each other;
* `Path.SameOutside`, `Path.sameOutside_changeAt` — the same, said of paths;
* `Edit.atChildren_eq_ok_iff`, `Edit.atChildren_eq_error_iff` — rebuilding is a change of
  the children at a place, and why it fails.
-/

namespace Spintax

namespace Node

/-! ## Going down -/

/-- To go down is to go down part of the way and then the rest of it. -/
theorem descend?_append (is js : List UInt64) (n : Node) :
    n.descend? (is ++ js) = (n.descend? is).bind (·.descend? js) := by
  induction is generalizing n with
  | nil => rfl
  | cons i is ih =>
    rw [List.cons_append, descend?, descend?]
    cases n.child? i.toNat with
    | none => rfl
    | some c => exact ih c

/-- The last step down leads from a node to one of its children. -/
theorem descend?_concat_eq_some_iff {is : List UInt64} {i : UInt64} {n m : Node} :
    n.descend? (is ++ [i]) = some m ↔
      ∃ c cs, n.descend? is = some c ∧ c.children? = some cs ∧ cs[i.toNat]? = some m := by
  have hOne : ∀ c : Node, c.descend? [i] = c.child? i.toNat := by
    intro c
    rw [descend?]
    cases c.child? i.toNat <;> rfl
  rw [descend?_append, Option.bind_eq_some_iff]
  refine exists_congr fun c => ?_
  rw [hOne, child?, Option.bind_eq_some_iff, exists_and_left]

/-! ## Children -/

/-- The node with its list of children changed; a text has none. -/
def mapChildren (f : List Node → List Node) : Node → Node
  | .text s => .text s
  | .option s cs => .option s (f cs)
  | .choice cs => .choice (f cs)
  | .root cs => .root (f cs)

section Children

variable {n m : Node} {f g : List Node → List Node}

@[simp] theorem kind_mapChildren (f : List Node → List Node) (n : Node) :
    (n.mapChildren f).kind = n.kind := by
  cases n <;> rfl

@[simp] theorem content?_mapChildren (f : List Node → List Node) (n : Node) :
    (n.mapChildren f).content? = n.content? := by
  cases n <;> rfl

@[simp] theorem children?_mapChildren (f : List Node → List Node) (n : Node) :
    (n.mapChildren f).children? = n.children?.map f := by
  cases n <;> rfl

theorem mapChildren_mapChildren (f g : List Node → List Node) (n : Node) :
    (n.mapChildren f).mapChildren g = n.mapChildren (g ∘ f) := by
  cases n <;> rfl

/-- Two changes that agree on the children give the same node. -/
theorem mapChildren_congr (h : ∀ cs, n.children? = some cs → f cs = g cs) :
    n.mapChildren f = n.mapChildren g := by
  cases n with
  | text s => rfl
  | option s cs => exact congrArg (option s) (h cs rfl)
  | choice cs => exact congrArg choice (h cs rfl)
  | root cs => exact congrArg root (h cs rfl)

theorem mapChildren_id (n : Node) : n.mapChildren id = n := by
  cases n <;> rfl

/-- Giving a node other children is changing those that it has. -/
theorem withChildren?_eq_some_iff {cs ds : List Node} (h : n.children? = some cs) :
    n.withChildren? ds = some m ↔ m = n.mapChildren fun _ => ds := by
  cases n with
  | text s => exact absurd h nofun
  | _ => exact Option.some_inj.trans eq_comm

end Children

/-! ## One place -/

/-- The tree with the node at the given positions changed. Positions that lead nowhere
leave the tree as it is. -/
def changeAt (f : Node → Node) : List UInt64 → Node → Node
  | [], n => f n
  | i :: is, n => n.mapChildren fun cs => cs.modify i.toNat (changeAt f is)

section Place

variable {n m : Node} {f g : Node → Node} {i : UInt64} {is js : List UInt64}

theorem changeAt_cons (f : Node → Node) (i : UInt64) (is : List UInt64) (n : Node) :
    n.changeAt f (i :: is) = n.mapChildren fun cs => cs.modify i.toNat (changeAt f is) := rfl

/-- What is changed below a child is put where the child was. -/
theorem mapChildren_set_eq_changeAt {cs : List Node} {c : Node} (hChildren : n.children? = some cs)
    (hChild : cs[i.toNat]? = some c) :
    (n.mapChildren fun _ => cs.set i.toNat (c.changeAt f is)) = n.changeAt f (i :: is) := by
  rw [changeAt_cons]
  refine mapChildren_congr fun ds hDs => ?_
  obtain rfl := Option.some.inj (hChildren.symm.trans hDs)
  rw [List.modify_eq_set, hChild]
  rfl

/-- Changing a node below a place is changing the node at the place. -/
theorem changeAt_append (f : Node → Node) (is js : List UInt64) (n : Node) :
    n.changeAt f (is ++ js) = n.changeAt (changeAt f js) is := by
  induction is generalizing n with
  | nil => rfl
  | cons i is ih =>
    rw [List.cons_append, changeAt_cons, changeAt_cons]
    refine mapChildren_congr fun cs _ => ?_
    exact congrArg (cs.modify i.toNat) (funext ih)

/-- Of the children only the one on the way is changed. -/
theorem child?_changeAt_cons (f : Node → Node) (i : UInt64) (is : List UInt64) (n : Node)
    (j : Nat) :
    (n.changeAt f (i :: is)).child? j =
      (n.child? j).map fun c => if i.toNat = j then c.changeAt f is else c := by
  rw [changeAt_cons, child?, child?, children?_mapChildren]
  cases n.children? with
  | none => rfl
  | some cs => exact List.getElem?_modify ..

/-- Going down to the place and on from there. -/
theorem descend?_changeAt_append (f : Node → Node) (is js : List UInt64) (n : Node) :
    (n.changeAt f is).descend? (is ++ js) = (n.descend? is).bind fun c => (f c).descend? js := by
  induction is generalizing n with
  | nil => rfl
  | cons i is ih =>
    rw [List.cons_append, descend?, descend?, child?_changeAt_cons]
    cases n.child? i.toNat with
    | none => rfl
    | some c => simpa using ih c

/-- **What is written is read back.** -/
theorem descend?_changeAt (f : Node → Node) (is : List UInt64) (n : Node) :
    (n.changeAt f is).descend? is = (n.descend? is).map f := by
  have h := descend?_changeAt_append f is [] n
  rw [List.append_nil] at h
  rw [h, Option.map_eq_bind]
  rfl

/-- What is above the place is changed further down. -/
theorem descend?_changeAt_above (f : Node → Node) (is js : List UInt64) (n : Node) :
    (n.changeAt f (is ++ js)).descend? is = (n.descend? is).map (changeAt f js) := by
  rw [changeAt_append, descend?_changeAt]

/-- **Beside the place nothing is changed**: neither of the two places lies below the
other. -/
theorem descend?_changeAt_of_apart (h : ¬ is <+: js) (h' : ¬ js <+: is) (f : Node → Node)
    (n : Node) : (n.changeAt f is).descend? js = n.descend? js := by
  induction is generalizing n js with
  | nil => exact absurd List.nil_prefix h
  | cons i is ih =>
    cases js with
    | nil => exact absurd List.nil_prefix h'
    | cons j js =>
      rw [descend?, descend?, child?_changeAt_cons]
      cases n.child? j.toNat with
      | none => rfl
      | some c =>
        by_cases hij : i = j
        · -- the two ways part further down
          subst hij
          rw [List.cons_prefix_cons, not_and] at h h'
          simpa using ih (h rfl) (h' rfl) c
        · have hNe : ¬ i.toNat = j.toNat := mt UInt64.toNat_inj.mp hij
          simp [hNe]

/-- Only what is done with the node that is there matters. -/
theorem changeAt_congr (h : ∀ c, n.descend? is = some c → f c = g c) :
    n.changeAt f is = n.changeAt g is := by
  induction is generalizing n with
  | nil => exact h n rfl
  | cons i is ih =>
    rw [changeAt_cons, changeAt_cons]
    refine mapChildren_congr fun cs hChildren => List.ext_getElem? fun j => ?_
    rw [List.getElem?_modify, List.getElem?_modify]
    cases hChild : cs[j]? with
    | none => rfl
    | some c =>
      by_cases hij : i.toNat = j
      · have hStep : n.child? i.toNat = some c := by
          rw [child?, hChildren, hij]
          exact hChild
        have hBelow : c.changeAt f is = c.changeAt g is := ih fun d hd => h d (by
          rw [descend?, hStep]
          exact hd)
        simp [hij, hBelow]
      · simp [hij]

/-- Only what is done with the children that are there matters. -/
theorem changeAt_mapChildren_congr {c : Node} {cs : List Node} {f g : List Node → List Node}
    (hHere : n.descend? is = some c) (hChildren : c.children? = some cs) (h : f cs = g cs) :
    n.changeAt (mapChildren f) is = n.changeAt (mapChildren g) is := by
  refine changeAt_congr fun d hd => ?_
  obtain rfl := Option.some.inj (hHere.symm.trans hd)
  refine mapChildren_congr fun ds hDs => ?_
  obtain rfl := Option.some.inj (hChildren.symm.trans hDs)
  exact h

/-- To change nothing of the node at a path leaves the tree as it is. -/
theorem changeAt_id (is : List UInt64) (n : Node) : n.changeAt id is = n := by
  induction is generalizing n with
  | nil => rfl
  | cons i is ih =>
    have hSame : changeAt id is = id := funext ih
    rw [changeAt_cons, hSame, funext (List.modify_id i.toNat)]
    exact mapChildren_id n

/-- **Writing what is there changes nothing.** -/
theorem changeAt_eq_self (h : ∀ c, n.descend? is = some c → f c = c) : n.changeAt f is = n :=
  (changeAt_congr h).trans (changeAt_id is n)

/-- **A second change at a place is made on top of the first one.** -/
theorem changeAt_changeAt (f g : Node → Node) (is : List UInt64) (n : Node) :
    (n.changeAt f is).changeAt g is = n.changeAt (g ∘ f) is := by
  induction is generalizing n with
  | nil => rfl
  | cons i is ih =>
    have hBelow : changeAt g is ∘ changeAt f is = changeAt (g ∘ f) is := funext ih
    rw [changeAt_cons, changeAt_cons, changeAt_cons, mapChildren_mapChildren]
    refine mapChildren_congr fun cs _ => ?_
    rw [Function.comp_apply, List.modify_modify_eq, hBelow]

/-- **Changes in two places**, neither of which lies below the other, **commute**. -/
theorem changeAt_comm_of_apart (h : ¬ is <+: js) (h' : ¬ js <+: is) (f g : Node → Node)
    (n : Node) : (n.changeAt f is).changeAt g js = (n.changeAt g js).changeAt f is := by
  induction is generalizing n js with
  | nil => exact absurd List.nil_prefix h
  | cons i is ih =>
    cases js with
    | nil => exact absurd List.nil_prefix h'
    | cons j js =>
      rw [changeAt_cons, changeAt_cons, changeAt_cons, changeAt_cons, mapChildren_mapChildren,
        mapChildren_mapChildren]
      -- at this node both are changes of its children
      refine mapChildren_congr fun cs _ => ?_
      by_cases hij : i = j
      · -- both are below the same child
        subst hij
        rw [List.cons_prefix_cons, not_and] at h h'
        have hBelow : changeAt g js ∘ changeAt f is = changeAt f is ∘ changeAt g js :=
          funext (ih (h rfl) (h' rfl))
        rw [Function.comp_apply, Function.comp_apply, List.modify_modify_eq,
          List.modify_modify_eq, hBelow]
      · exact List.modify_modify_ne _ _ cs (mt UInt64.toNat_inj.mp hij)

/-- Changing a list of children twice is changing it by both, one after the other. -/
theorem changeAt_mapChildren_mapChildren (f g : List Node → List Node) (is : List UInt64)
    (n : Node) :
    (n.changeAt (mapChildren f) is).changeAt (mapChildren g) is =
      n.changeAt (mapChildren (g ∘ f)) is := by
  have hBoth : mapChildren g ∘ mapChildren f = mapChildren (g ∘ f) :=
    funext fun c => mapChildren_mapChildren f g c
  rw [changeAt_changeAt, hBoth]

/-- What takes back the change of a list of children takes it back in the tree. -/
theorem changeAt_mapChildren_inverse {c : Node} {cs : List Node} {f g : List Node → List Node}
    (hHere : n.descend? is = some c) (hChildren : c.children? = some cs) (h : g (f cs) = cs) :
    (n.changeAt (mapChildren f) is).changeAt (mapChildren g) is = n := by
  have hSame : mapChildren id = id := funext mapChildren_id
  calc
    (n.changeAt (mapChildren f) is).changeAt (mapChildren g) is
      = n.changeAt (mapChildren (g ∘ f)) is := changeAt_mapChildren_mapChildren f g is n
    _ = n.changeAt (mapChildren id) is := changeAt_mapChildren_congr hHere hChildren h
    _ = n := by rw [hSame, changeAt_id]

/-- Two nodes that look alike, apart from what their children are. -/
structure Alike (n m : Node) : Prop where
  kind : m.kind = n.kind
  content : m.content? = n.content?
  size : m.children?.map List.length = n.children?.map List.length

/-- **Above the place**, nodes look as they did. -/
theorem alike_changeAt_cons (f : Node → Node) (i : UInt64) (is : List UInt64) (n : Node) :
    Alike n (n.changeAt f (i :: is)) where
  kind := by rw [changeAt_cons, kind_mapChildren]
  content := by rw [changeAt_cons, content?_mapChildren]
  size := by
    rw [changeAt_cons, children?_mapChildren, Option.map_map]
    congr 1
    exact funext fun cs => List.length_modify ..

/-- **Kinds change only at the place and below it.** -/
theorem map_kind_descend?_changeAt (h : ¬ is <+: js) (f : Node → Node) (n : Node) :
    ((n.changeAt f is).descend? js).map kind = (n.descend? js).map kind := by
  by_cases h' : js <+: is
  · obtain ⟨ks, rfl⟩ := h'
    cases ks with
    | nil => exact absurd (by simp) h
    | cons k ks =>
      have hKind : kind ∘ changeAt f (k :: ks) = kind :=
        funext fun c => (alike_changeAt_cons f k ks c).kind
      rw [descend?_changeAt_above, Option.map_map, hKind]
  · rw [descend?_changeAt_of_apart h h']

end Place

end Node

/-! ## Places and paths -/

namespace Path

variable {p q : Path} {is js : List UInt64}

/-- A path that has positions is the path of those positions. -/
theorem segments_of_indices (h : p.indices = .ok is) : p.segments = segmentsOf is := by
  obtain ⟨segments⟩ := p
  show segments = _
  replace h : indicesOf segments = .ok is := h
  induction segments using indicesOf.induct generalizing is with
  | case1 =>
    obtain rfl := Except.ok.inj h
    rfl
  | case3 i rest is' hRest ih =>
    simp only [indicesOf, hRest, if_true] at h
    obtain rfl := Except.ok.inj h
    rw [segmentsOf, ← ih hRest]
  | _ => simp_all [indicesOf]

/-- Of two paths one begins the other exactly if its positions do. -/
theorem segmentsOf_prefix_iff : segmentsOf is <+: segmentsOf js ↔ is <+: js := by
  induction is generalizing js with
  | nil => simp [segmentsOf]
  | cons i is ih =>
    cases js with
    | nil => simp [segmentsOf]
    | cons j js => simp [segmentsOf, List.cons_prefix_cons, ih]

theorem resolve?_of_indices (h : p.indices = .ok is) (n : Node) : p.resolve? n = n.descend? is := by
  rw [resolve?, h]

theorem resolve?_of_error {e : PathError} (h : p.indices = .error e) (n : Node) :
    p.resolve? n = none := by
  rw [resolve?, h]

/-- A path that leads to a node has positions that lead there. -/
theorem resolve?_eq_some_iff {n m : Node} :
    p.resolve? n = some m ↔ ∃ is, p.indices = .ok is ∧ n.descend? is = some m := by
  rw [resolve?]
  cases p.indices <;> simp

/-- The tree `after` is the tree `before` but for what is at the path or below it. Beside
the path the same nodes are found; above it nodes look alike. -/
structure SameOutside (p : Path) (before after : Node) : Prop where
  apart : ∀ q : Path, ¬ p.segments <+: q.segments → ¬ q.segments <+: p.segments →
    q.resolve? after = q.resolve? before
  above : ∀ q : Path, q.segments <+: p.segments → q ≠ p → ∀ n, q.resolve? before = some n →
    ∃ m, q.resolve? after = some m ∧ n.Alike m

/-- **A change in one place leaves the tree the same outside of it.** -/
theorem sameOutside_changeAt (h : p.indices = .ok is) (f : Node → Node) (n : Node) :
    p.SameOutside n (n.changeAt f is) where
  apart := by
    intro q hBelow hAbove
    rw [segments_of_indices h] at hBelow hAbove
    cases hq : q.indices with
    | error e => rw [resolve?_of_error hq, resolve?_of_error hq]
    | ok js =>
      rw [segments_of_indices hq, segmentsOf_prefix_iff] at hBelow hAbove
      rw [resolve?_of_indices hq, resolve?_of_indices hq]
      exact Node.descend?_changeAt_of_apart hBelow hAbove f n
  above := by
    intro q hAbove hNe c hc
    obtain ⟨js, hq, hc⟩ := resolve?_eq_some_iff.mp hc
    rw [segments_of_indices h, segments_of_indices hq, segmentsOf_prefix_iff] at hAbove
    obtain ⟨ks, rfl⟩ := hAbove
    cases ks with
    | nil =>
      -- a path is given by its positions
      have hSame : q.segments = p.segments := by
        rw [segments_of_indices hq, segments_of_indices h, List.append_nil]
      exact absurd (congrArg Path.mk hSame) hNe
    | cons k ks =>
      rw [resolve?_of_indices hq, Node.descend?_changeAt_above, hc]
      exact ⟨_, rfl, Node.alike_changeAt_cons f k ks c⟩

end Path

/-! ## Rebuilding -/

namespace Edit

variable {place : Path} {edit : Kind → List Node → Except EditError (List Node)}
  {is : List UInt64} {n m : Node}

/-- **Rebuilding is a change of the children at a place**: there is a node there, the
edit accepts its children, and they are replaced by what the edit makes of them. -/
theorem atChildren_eq_ok_iff :
    atChildren place edit is n = .ok m ↔
      ∃ c cs ds, n.descend? is = some c ∧ c.children? = some cs ∧ edit c.kind cs = .ok ds ∧
        m = n.changeAt (Node.mapChildren fun _ => ds) is := by
  induction is generalizing n m with
  | nil =>
    rw [atChildren_nil_eq_ok_iff]
    constructor
    · rintro ⟨cs, ds, hChildren, hEdit, hNode⟩
      exact ⟨n, cs, ds, rfl, hChildren, hEdit, (Node.withChildren?_eq_some_iff hChildren).mp hNode⟩
    · rintro ⟨c, cs, ds, hHere, hChildren, hEdit, hNode⟩
      obtain rfl := Option.some.inj hHere
      exact ⟨cs, ds, hChildren, hEdit, (Node.withChildren?_eq_some_iff hChildren).mpr hNode⟩
  | cons i is ih =>
    rw [atChildren_cons_eq_ok_iff]
    constructor
    · rintro ⟨cs, c, d, hChildren, hChild, hOk, hNode⟩
      obtain ⟨container, es, ds, hDescend, hEs, hEdit, rfl⟩ := ih.mp hOk
      refine ⟨container, es, ds, ?_, hEs, hEdit, ?_⟩
      · rw [Node.descend?, Node.child?, hChildren, Option.bind_some, hChild]
        exact hDescend
      · rw [← Node.mapChildren_set_eq_changeAt hChildren hChild]
        exact (Node.withChildren?_eq_some_iff hChildren).mp hNode
    · rintro ⟨container, es, ds, hDescend, hEs, hEdit, rfl⟩
      rw [Node.descend?] at hDescend
      split at hDescend
      · next c hc =>
        obtain ⟨cs, hChildren, hChild⟩ := Option.bind_eq_some_iff.mp hc
        refine ⟨cs, c, _, hChildren, hChild, ih.mpr ⟨container, es, ds, hDescend, hEs, hEdit, rfl⟩,
          ?_⟩
        rw [← Node.mapChildren_set_eq_changeAt hChildren hChild]
        exact (Node.withChildren?_eq_some_iff hChildren).mpr rfl
      · exact absurd hDescend (by simp)

/-- A node with children can be given others. -/
theorem exists_withChildren? {cs : List Node} (h : n.children? = some cs) (ds : List Node) :
    ∃ m, n.withChildren? ds = some m := by
  rw [← Option.isSome_iff_exists, Node.withChildren?_isSome, Node.isContainer_kind, h]
  rfl

/-- **Why rebuilding fails**: there is no node at the place, the node has no children, or
the edit fails with those that it has. On the way back up nothing fails. -/
theorem atChildren_eq_error_iff {e : EditError} :
    atChildren place edit is n = .error e ↔
      n.descend? is = none ∧ e = .notFound place ∨
        ∃ c, n.descend? is = some c ∧
          (c.children? = none ∧ e = .notAContainer place ∨
            ∃ cs, c.children? = some cs ∧ edit c.kind cs = .error e) := by
  induction is generalizing n with
  | nil =>
    rw [atChildren, Node.descend?]
    cases hChildren : n.children? with
    | none => simp [hChildren, eq_comm (a := e)]
    | some cs =>
      cases hEdit : edit n.kind cs with
      | error e' => simp [hChildren, hEdit]
      | ok ds =>
        obtain ⟨m, hNode⟩ := exists_withChildren? hChildren ds
        simp [hChildren, hEdit, withChildren_eq_ok_iff.mpr hNode]
  | cons i is ih =>
    rw [atChildren, Node.descend?, Node.child?]
    cases hChildren : n.children? with
    | none => simp [eq_comm (a := e)]
    | some cs =>
      rw [Option.bind_some]
      cases hChild : cs[i.toNat]? with
      | none => simp [hChild, eq_comm (a := e)]
      | some c =>
        simp only [hChild]
        rw [← ih]
        cases hBelow : atChildren place edit is c with
        | error e' => rfl
        | ok d =>
          obtain ⟨m, hNode⟩ := exists_withChildren? hChildren (cs.set i.toNat d)
          simp [withChildren_eq_ok_iff.mpr hNode]

end Edit

end Spintax
