import Mathlib.Data.List.Lex
import Spintax.Proofs.Counting

/-!
# Spintax — what is listed

The list of renderings is complete, has one entry for each way to pick, and
follows the order of the picks. Two things have to be seen. The renderings are
put together from beginnings that grow, the picks from the last node on, and
both give the same texts (`renderings_eq_map_text`). And picks of different
lengths are compared: two walks through a tree part at some choice, where one
takes an earlier option than the other (`Picked.Before`); neither is the
beginning of the other. That goes through nodes laid side by side, which the
order of lists alone would not.

* `pairwise_picks` — the picks of a tree, in order;
* `mem_picks_iff` — they are those of the walks;
* `listing_eq` — when a tree is listed;
* `listing_eq_picks` — what its list is.
-/

namespace Spintax

namespace Node

/-! ## Texts -/

/-- Continuing beginnings by a sequence puts each of them in front of every rendering of
the sequence. -/
theorem continuations_eq_flatMap {ns : List Node}
    (h : ∀ n ∈ ns, n.renderings = n.picks.map Picked.text) (heads : List (List Char)) :
    continuations ns heads =
      heads.flatMap fun head => (picksAll ns).map fun p => head ++ p.text := by
  induction ns generalizing heads with
  | nil => simp [continuations, picksAll, Picked.none]
  | cons n ns ih =>
    rw [List.forall_mem_cons] at h
    rw [continuations, ih h.2, picksAll, h.1]
    -- a beginning, a rendering of the first node, and one of the others
    simp [List.flatMap_assoc, List.flatMap_map, List.map_flatMap, Function.comp_def,
      Picked.append]

/-- The alternatives of a choice are the texts of the picks among them. -/
theorem alternatives_eq_map {ns : List Node}
    (h : ∀ n ∈ ns, n.renderings = n.picks.map Picked.text) (i : Nat) :
    alternatives ns = (picksAmong i ns).map Picked.text := by
  induction ns generalizing i with
  | nil => rfl
  | cons n ns ih =>
    rw [List.forall_mem_cons] at h
    rw [alternatives, picksAmong, List.map_append, ← ih h.2, h.1, List.map_map]
    rfl

/-- The renderings are the texts that the picks lead to. -/
theorem renderings_eq_map_text (n : Node) : n.renderings = n.picks.map Picked.text := by
  induction n using tree_induction with
  | text s => rfl
  | option s ns ih =>
    rw [renderings, picks, continuations_eq_flatMap ih, List.map_map]
    simp [Picked.precede, Function.comp_def]
  | choice ns ih =>
    cases ns with
    | nil => rfl
    | cons n ns => exact alternatives_eq_map ih 0
  | root ns ih =>
    rw [renderings, picks, continuations_eq_flatMap ih]
    simp

/-! ## Order -/

namespace Picked

/-- The picks part from others, and take the earlier option there. -/
def Before (p q : Picked) : Prop :=
  ∃ common i j p' q', p.picks = common ++ i :: p' ∧ q.picks = common ++ j :: q' ∧ i < j

variable {p q : Picked}

/-- What the picks have in common in front plays no part. -/
theorem Before.append_left (h : Before p q) (first : Picked) :
    Before (first.append p) (first.append q) := by
  obtain ⟨common, i, j, p', q', hp, hq, hLt⟩ := h
  refine ⟨first.picks ++ common, i, j, p', q', ?_, ?_, hLt⟩
  · rw [append, hp, List.append_assoc]
  · rw [append, hq, List.append_assoc]

/-- Nor does what comes after they have parted. -/
theorem Before.append_right (h : Before p q) (r s : Picked) :
    Before (p.append r) (q.append s) := by
  obtain ⟨common, i, j, p', q', hp, hq, hLt⟩ := h
  refine ⟨common, i, j, p' ++ r.picks, q' ++ s.picks, ?_, ?_, hLt⟩
  · rw [append, hp, List.append_assoc, List.cons_append]
  · rw [append, hq, List.append_assoc, List.cons_append]

theorem Before.after (h : Before p q) (i : Nat) : Before (p.after i) (q.after i) :=
  h.append_left ⟨[i], []⟩

/-- An earlier option comes first, whatever is picked later. -/
theorem before_of_lt {i j : Nat} (h : i < j) (p q : Picked) : Before (p.after i) (q.after j) :=
  ⟨[], i, j, p.picks, q.picks, rfl, rfl, h⟩

/-- Picks that come first are lexicographically smaller. -/
theorem Before.lex (h : Before p q) : List.Lex (· < ·) p.picks q.picks := by
  obtain ⟨common, i, j, p', q', hp, hq, hLt⟩ := h
  rw [hp, hq]
  exact List.Lex.append_left _ (List.Lex.rel hLt) common

end Picked

/-- The picks of a sequence are in order, if those of its nodes are. -/
theorem pairwise_picksAll {ns : List Node} (h : ∀ n ∈ ns, n.picks.Pairwise Picked.Before) :
    (picksAll ns).Pairwise Picked.Before := by
  induction ns with
  | nil => exact List.pairwise_singleton _ _
  | cons n ns ih =>
    rw [List.forall_mem_cons] at h
    rw [picksAll, List.pairwise_flatMap]
    constructor
    · -- the same picks in the first node: those in the others decide
      intro p hp
      rw [List.pairwise_map]
      exact (ih h.2).imp fun hBefore => hBefore.append_left p
    · refine h.1.imp fun hBefore x hx y hy => ?_
      obtain ⟨p', -, rfl⟩ := List.mem_map.mp hx
      obtain ⟨q', -, rfl⟩ := List.mem_map.mp hy
      exact hBefore.append_right p' q'

/-- The picks at a choice whose first option stands at position `i`. -/
theorem mem_picksAmong_iff {ns : List Node} {i : Nat} {p : Picked} :
    p ∈ picksAmong i ns ↔
      ∃ (k : Nat) (n : Node) (q : Picked),
        ns[k]? = some n ∧ q ∈ n.picks ∧ p = q.after (i + k) := by
  induction ns generalizing i with
  | nil => simp [picksAmong]
  | cons n ns ih =>
    rw [picksAmong, List.mem_append, ih, List.mem_map]
    constructor
    · rintro (⟨q, hq, rfl⟩ | ⟨k, m, q, hTaken, hq, rfl⟩)
      · exact ⟨0, n, q, rfl, hq, rfl⟩
      · exact ⟨k + 1, m, q, hTaken, hq, by rw [Nat.add_right_comm, Nat.add_assoc]⟩
    · rintro ⟨_ | k, m, q, hTaken, hq, rfl⟩
      · obtain rfl := Option.some.inj hTaken
        exact .inl ⟨q, hq, rfl⟩
      · exact .inr ⟨k, m, q, hTaken, hq, by rw [Nat.add_right_comm, Nat.add_assoc]⟩

/-- The picks of a choice are in order, if those of its options are. -/
theorem pairwise_picksAmong {ns : List Node} (h : ∀ n ∈ ns, n.picks.Pairwise Picked.Before)
    (i : Nat) : (picksAmong i ns).Pairwise Picked.Before := by
  induction ns generalizing i with
  | nil => exact List.Pairwise.nil
  | cons n ns ih =>
    rw [List.forall_mem_cons] at h
    rw [picksAmong, List.pairwise_append, List.pairwise_map]
    refine ⟨h.1.imp fun hBefore => hBefore.after i, ih h.2 (i + 1), ?_⟩
    -- the options that follow stand at later positions
    intro p hp q hq
    obtain ⟨p', -, rfl⟩ := List.mem_map.mp hp
    obtain ⟨k, -, q', -, -, rfl⟩ := mem_picksAmong_iff.mp hq
    exact Picked.before_of_lt (by omega) p' q'

/-- **The picks of a tree are listed in order**: of two, the earlier one takes
the earlier option where they part. -/
theorem pairwise_picks (n : Node) : n.picks.Pairwise Picked.Before := by
  induction n using tree_induction with
  | text s => exact List.pairwise_singleton _ _
  | option s ns ih =>
    rw [picks, List.pairwise_map]
    exact pairwise_picksAll ih
  | choice ns ih =>
    cases ns with
    | nil => exact List.pairwise_singleton _ _
    | cons n ns => exact pairwise_picksAmong ih 0
  | root ns ih => exact pairwise_picksAll ih

/-! ## Walks -/

/-- The picks that are listed for a tree are those of its walks. -/
def ListsWalks (n : Node) : Prop :=
  ∀ p, p ∈ n.picks ↔ ∃ w, n.Walk w p.text ∧ w.map Pick.position = p.picks

/-- The picks of a sequence are those of its walks, if this holds of its nodes. -/
theorem mem_picksAll_iff {ns : List Node} (h : ∀ n ∈ ns, n.ListsWalks) (p : Picked) :
    p ∈ picksAll ns ↔ ∃ w, WalkAll ns w p.text ∧ w.map Pick.position = p.picks := by
  induction ns generalizing p with
  | nil =>
    rw [picksAll, List.mem_singleton]
    constructor
    · rintro rfl
      exact ⟨[], .nil, rfl⟩
    · rintro ⟨w, hWalk, hPicks⟩
      obtain ⟨picks, text⟩ := p
      cases hWalk
      exact congrArg (Picked.mk · []) hPicks.symm
  | cons n ns ih =>
    rw [List.forall_mem_cons] at h
    rw [picksAll, List.mem_flatMap]
    constructor
    · rintro ⟨q, hq, hMem⟩
      obtain ⟨r, hr, rfl⟩ := List.mem_map.mp hMem
      obtain ⟨w, hWalk, hPicks⟩ := (h.1 q).mp hq
      obtain ⟨v, hRest, hPicksRest⟩ := (ih h.2 r).mp hr
      refine ⟨w ++ v, .cons hWalk hRest, ?_⟩
      rw [List.map_append, hPicks, hPicksRest]
      rfl
    · rintro ⟨w, hWalk, hPicks⟩
      obtain ⟨picks, text⟩ := p
      cases hWalk with
      | @cons _ _ w v s t hWalk hRest =>
        subst hPicks
        refine ⟨⟨w.map Pick.position, s⟩, (h.1 _).mpr ⟨w, hWalk, rfl⟩, ?_⟩
        refine List.mem_map.mpr ⟨⟨v.map Pick.position, t⟩, (ih h.2 _).mpr ⟨v, hRest, rfl⟩, ?_⟩
        rw [List.map_append]
        rfl

/-- **What is listed are the walks**, each with its rendering. -/
theorem mem_picks_iff (n : Node) : n.ListsWalks := by
  induction n using tree_induction with
  | text s =>
    intro p
    rw [picks, List.mem_singleton]
    constructor
    · rintro rfl
      exact ⟨[], .text s, rfl⟩
    · rintro ⟨w, hWalk, hPicks⟩
      obtain ⟨picks, text⟩ := p
      cases hWalk
      exact congrArg (Picked.mk · text) hPicks.symm
  | option s ns ih =>
    intro p
    rw [picks, List.mem_map]
    constructor
    · rintro ⟨q, hq, rfl⟩
      obtain ⟨w, hWalk, hPicks⟩ := (mem_picksAll_iff ih q).mp hq
      exact ⟨w, .option hWalk, hPicks⟩
    · rintro ⟨w, hWalk, hPicks⟩
      obtain ⟨picks, text⟩ := p
      cases hWalk with
      | @option _ t _ _ hWalk =>
        exact ⟨⟨picks, t⟩, (mem_picksAll_iff ih ⟨picks, t⟩).mpr ⟨w, hWalk, hPicks⟩, rfl⟩
  | choice ns ih =>
    intro p
    -- without options there is one rendering, and nothing is picked for it
    cases ns with
    | nil =>
      rw [picks, List.mem_singleton]
      constructor
      · rintro rfl
        exact ⟨[], .noOption, rfl⟩
      · rintro ⟨w, hWalk, hPicks⟩
        obtain ⟨picks, text⟩ := p
        cases hWalk with
        | noOption => exact congrArg (Picked.mk · []) hPicks.symm
        | choice hTaken => exact absurd hTaken (by simp)
    | cons m ms =>
      -- the first pick of an entry says which option the rest of it comes from
      rw [picks, mem_picksAmong_iff]
      constructor
      · rintro ⟨k, n, q, hTaken, hq, rfl⟩
        obtain ⟨w, hWalk, hPicks⟩ := (ih n (List.mem_of_getElem? hTaken) q).mp hq
        refine ⟨⟨(m :: ms).length, k⟩ :: w, .choice hTaken hWalk, ?_⟩
        rw [List.map_cons, hPicks, Nat.zero_add]
        rfl
      · rintro ⟨w, hWalk, hPicks⟩
        obtain ⟨picks, text⟩ := p
        cases hWalk with
        | @choice _ k n w _ hTaken hWalk =>
          subst hPicks
          refine ⟨k, n, ⟨w.map Pick.position, text⟩, hTaken, ?_, ?_⟩
          · exact (ih n (List.mem_of_getElem? hTaken) _).mpr ⟨w, hWalk, rfl⟩
          · rw [Nat.zero_add]
            rfl
  | root ns ih =>
    intro p
    rw [picks, mem_picksAll_iff ih]
    constructor
    · rintro ⟨w, hWalk, hPicks⟩
      exact ⟨w, .root hWalk, hPicks⟩
    · rintro ⟨w, hWalk, hPicks⟩
      cases hWalk with
      | root hWalk => exact ⟨w, hWalk, hPicks⟩

/-! ## Lists -/

/-- The limit that a listing goes by is at least one. -/
theorem effectiveCeiling_eq_max (limit : UInt64) : effectiveCeiling limit = max limit 1 := by
  rw [← UInt64.toNat_inj, toNat_effectiveCeiling]
  show _ = (if limit ≤ 1 then 1 else limit).toNat
  have hLe : limit ≤ 1 ↔ limit.toNat ≤ 1 := UInt64.le_iff_toNat_le
  split
  · next hOne => exact Nat.max_eq_right (hLe.mp hOne)
  · next hOne =>
    have hMore := mt hLe.mpr hOne
    exact Nat.max_eq_left (by omega)

/-- A tree is listed exactly if it has no more renderings than the limit allows. -/
theorem listing_eq (limit : UInt64) (n : Node) :
    n.listing limit =
      if n.count ≤ max limit.toNat 1 then .ok n.renderings
      else .error (.tooMany (max limit 1)) := by
  have hCeiling := toNat_effectiveCeiling limit
  have hCount := countWithin?_eq_capped (c := effectiveCeiling limit) (by omega) n
  unfold listing variations
  rw [hCount, ← hCeiling, ← effectiveCeiling_eq_max]
  cases hCapped : capped (effectiveCeiling limit) n.count with
  | none =>
    have hOver := capped_eq_none_iff.mp hCapped
    rw [if_neg (by omega)]
  | some k => rw [if_pos (capped_eq_some_iff.mp hCapped).2]

/-- **What is listed**: a tree with more renderings than the limit is refused,
and of any other the list has one entry for each walk, in the order of the
picks that the walks make. -/
theorem listing_eq_picks (limit : UInt64) (n : Node) :
    n.listing limit =
        (if n.count ≤ max limit.toNat 1 then .ok (n.picks.map Picked.text)
          else .error (.tooMany (max limit 1))) ∧
      n.picks.length = n.count ∧
      (∀ p, p ∈ n.picks ↔ ∃ w, n.Walk w p.text ∧ w.map Pick.position = p.picks) ∧
      n.picks.Pairwise fun p q => List.Lex (· < ·) p.picks q.picks := by
  have hTexts := renderings_eq_map_text n
  refine ⟨?_, ?_, mem_picks_iff n, (pairwise_picks n).imp Picked.Before.lex⟩
  · rw [listing_eq, hTexts]
  · rw [← length_renderings, hTexts, List.length_map]

/-- The list follows the picks, of which the last option needs only one. -/
example :
    (choice [option ['a'] [choice [option ['x'] [], option ['y'] []]], option ['b'] []]).picks =
      [⟨[0, 0], ['a', 'x']⟩, ⟨[0, 1], ['a', 'y']⟩, ⟨[1], ['b']⟩] := by
  decide

end Node

end Spintax
