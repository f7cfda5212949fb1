import Spintax.History

/-!
# Spintax — what holds of a history

A history is walked up and down: undoing and redoing pass snapshots from one
side to the other and lose none. Each side is cut off at the limit, but that
matters only when a change is recorded. Then nothing is left to redo; and from
there on both sides together never hold more than the past held at that time
(`History.Bounded`), so there is room on the other side for whatever one of them
gives up (`History.undo_of_past_eq_cons`).

* `History.Holds` — what holds of every tree in a history;
* `History.keep` — what a side keeps of a list of snapshots;
* `History.Bounded` — both sides together are within the limit;
* `History.redo_undo`, `History.undo_redo` — redoing takes back what undoing did, and
  the other way round;
* `History.pending?` — what an open batch has recorded.
-/

namespace Spintax

namespace History

/-! ## The trees of a history -/

/-- Every tree that a history holds has a property: those that can be undone,
those that can be redone, and the one that the open batch goes back to. -/
structure Holds (P : Node → Prop) (h : History) : Prop where
  past : ∀ s ∈ h.past, P s.tree
  future : ∀ s ∈ h.future, P s.tree
  batch : ∀ b ∈ h.batch, ∀ n ∈ b.before, P n

variable {P : Node → Prop} {h : History}

theorem holds_empty (limit : Nat) : (empty limit).Holds P :=
  ⟨by simp [empty], by simp [empty], by simp [empty]⟩

/-- Pushing puts one snapshot on top, and may lose others. -/
theorem mem_push {limit : Nat} {s t : Snapshot} {side : List Snapshot}
    (h : t ∈ push limit s side) : t = s ∨ t ∈ side := by
  rw [push_eq_cons, List.mem_cons] at h
  refine h.imp_right fun hRest => ?_
  split at hRest
  · exact List.dropLast_subset _ hRest
  · exact hRest

/-- What holds of a side and of the snapshot that is pushed holds afterwards. -/
theorem forall_mem_push {limit : Nat} {s : Snapshot} {side : List Snapshot} (hs : P s.tree)
    (hSide : ∀ t ∈ side, P t.tree) : ∀ t ∈ push limit s side, P t.tree := by
  intro t ht
  rcases mem_push ht with rfl | ht
  · exact hs
  · exact hSide t ht

/-- Remembering a tree with the property keeps it. -/
theorem Holds.remember (hHolds : h.Holds P) {s : Snapshot} (hs : P s.tree) :
    (h.remember s).Holds P where
  past := forall_mem_push hs hHolds.past
  future := by simp [History.remember]
  batch := hHolds.batch

/-- Recording a tree with the property keeps it, in a batch or not. -/
theorem Holds.record (hHolds : h.Holds P) {before : Node} (hBefore : P before)
    (description : Option String) : (h.record before description).Holds P := by
  unfold History.record
  cases hBatch : h.batch with
  | none => exact hHolds.remember hBefore
  | some b =>
    refine ⟨hHolds.past, hHolds.future, ?_⟩
    rintro b' ⟨⟩ n hn
    -- the batch goes back to the tree it had, if it had one
    cases hb : b.before with
    | none =>
      obtain rfl : before = n := by simpa [hb] using hn
      exact hBefore
    | some m =>
      obtain rfl : m = n := by simpa [hb] using hn
      exact hHolds.batch b hBatch m hb

theorem Holds.withoutBatch (hHolds : h.Holds P) : { h with batch := none }.Holds P :=
  ⟨hHolds.past, hHolds.future, by simp⟩

/-- A batch that has just begun holds no tree. -/
theorem Holds.beginBatch (hHolds : h.Holds P) : h.beginBatch.Holds P := by
  unfold History.beginBatch
  split
  · exact hHolds
  · refine ⟨hHolds.past, hHolds.future, ?_⟩
    rintro b ⟨⟩ n hn
    exact absurd hn (by simp)

/-- Saying what the batch is does not change its tree. -/
theorem Holds.describeBatch (hHolds : h.Holds P) (description : String) :
    (h.describeBatch description).Holds P := by
  refine ⟨hHolds.past, hHolds.future, fun b' hb' n hn => ?_⟩
  obtain ⟨b, hb, rfl⟩ := Option.map_eq_some_iff.mp hb'
  exact hHolds.batch b hb n hn

/-- Closing the batch moves its tree to the past. -/
theorem Holds.endBatch (hHolds : h.Holds P) : h.endBatch.Holds P := by
  unfold History.endBatch
  split
  · next before description hBatch =>
    exact hHolds.withoutBatch.remember (hHolds.batch _ hBatch before rfl)
  · exact hHolds.withoutBatch

/-- Undoing takes a tree from the past, and leaves the current one instead. -/
theorem Holds.undo (hHolds : h.Holds P) {current : Node} (hCurrent : P current) :
    (∀ n ∈ (h.undo current).1, P n) ∧ (h.undo current).2.Holds P := by
  have hEnd := hHolds.endBatch
  unfold History.undo
  simp only
  split
  · exact ⟨by simp, hEnd⟩
  · next s past hPast =>
    have hAll := hEnd.past
    rw [hPast, List.forall_mem_cons] at hAll
    exact ⟨by simpa using hAll.1, hAll.2, forall_mem_push hCurrent hEnd.future, hEnd.batch⟩

/-- Redoing takes a tree from the future, and leaves the current one instead. -/
theorem Holds.redo (hHolds : h.Holds P) {current : Node} (hCurrent : P current) :
    (∀ n ∈ (h.redo current).1, P n) ∧ (h.redo current).2.Holds P := by
  have hEnd := hHolds.endBatch
  unfold History.redo
  simp only
  split
  · exact ⟨by simp, hEnd⟩
  · next s future hFuture =>
    have hAll := hEnd.future
    rw [hFuture, List.forall_mem_cons] at hAll
    exact ⟨by simpa using hAll.1, forall_mem_push hCurrent hEnd.past, hAll.2, hEnd.batch⟩

/-! ## Sides of a history -/

/-- What a side keeps of a list, which begins with what is most recent. -/
def keep {α : Type} (limit : Nat) (side : List α) : List α :=
  if limit = 0 then side else side.take limit

/-- How many of `n` snapshots a side keeps. -/
def kept (limit n : Nat) : Nat :=
  if limit = 0 then n else min n limit

section Keep

variable {α β : Type} {limit : Nat}

/-- To a side within the limit, letting one snapshot go and cutting the side off are the
same. -/
theorem push_eq_keep {side : List Snapshot} (hBound : limit ≠ 0 → side.length ≤ limit)
    (s : Snapshot) : push limit s side = keep limit (s :: side) := by
  simp only [push, keep, List.length_cons, Nat.pos_iff_ne_zero]
  by_cases hLimit : limit = 0
  · rw [if_neg (fun h => h.1 hLimit), if_pos hLimit]
  · have hLe := hBound hLimit
    rw [if_neg hLimit]
    split
    · next hFull =>
      rw [List.dropLast_eq_take, List.length_cons]
      congr 1
      omega
    · next hRoom => exact (List.take_of_length_le (by rw [List.length_cons]; omega)).symm

/-- How many snapshots are kept depends on their number alone. -/
theorem length_keep (side : List α) : (keep limit side).length = kept limit side.length := by
  unfold keep kept
  split
  · rfl
  · rw [List.length_take, Nat.min_comm]

/-- What is kept can be looked at before or after the cut. -/
theorem map_keep (f : α → β) (side : List α) :
    (keep limit side).map f = keep limit (side.map f) := by
  unfold keep
  split
  · rfl
  · rw [List.map_take]

/-- A side that is within the limit is kept whole. -/
theorem keep_eq_self {side : List α} (h : limit ≠ 0 → side.length ≤ limit) :
    keep limit side = side := by
  unfold keep
  split
  · rfl
  · next hLimit => exact List.take_of_length_le (h hLimit)

/-- What is cut off early would have been cut off later. -/
theorem keep_append_keep (xs ys : List α) :
    keep limit (xs ++ keep limit ys) = keep limit (xs ++ ys) := by
  unfold keep
  split
  · rfl
  · rw [List.take_append, List.take_append, List.take_take, Nat.min_eq_left (Nat.sub_le ..)]

/-- What lies within the limit is found where it was. -/
theorem getElem?_keep {side : List α} {i : Nat} (h : limit ≠ 0 → i < limit) :
    (keep limit side)[i]? = side[i]? := by
  unfold keep
  split
  · rfl
  · next hLimit => rw [List.getElem?_take, if_pos (h hLimit)]

/-- No more is kept than was there. -/
theorem kept_le (limit n : Nat) : kept limit n ≤ n := by
  unfold kept
  split
  · exact Nat.le_refl n
  · exact Nat.min_le_left ..

theorem kept_le_limit (n : Nat) (h : limit ≠ 0) : kept limit n ≤ limit := by
  rw [kept, if_neg h]
  exact Nat.min_le_right ..

/-- Of more snapshots at least as many are kept. -/
theorem kept_mono {m n : Nat} (h : m ≤ n) : kept limit m ≤ kept limit n := by
  unfold kept
  split
  · exact h
  · omega

end Keep

/-! ## The limit -/

/-- A history with a given limit, within which both sides lie together. -/
structure Bounded (limit : Nat) (h : History) : Prop where
  limit_eq : h.limit = limit
  total : limit ≠ 0 → h.past.length + h.future.length ≤ limit

section Bounded

variable {limit : Nat} {h : History}

theorem bounded_empty (limit : Nat) : (empty limit).Bounded limit :=
  ⟨rfl, fun _ => Nat.zero_le limit⟩

theorem Bounded.length_past_le (hBound : h.Bounded limit) (hLimit : limit ≠ 0) :
    h.past.length ≤ limit :=
  Nat.le_trans (Nat.le_add_right ..) (hBound.total hLimit)

/-- Remembering a change empties the future, so the past may fill the limit by itself. -/
theorem Bounded.remember (hBound : h.Bounded limit) (s : Snapshot) :
    (h.remember s).Bounded limit := by
  refine ⟨hBound.limit_eq, fun hLimit => ?_⟩
  have hPast : (push h.limit s h.past).length ≤ limit := by
    rw [hBound.limit_eq]
    exact length_push_le hLimit s (hBound.length_past_le hLimit)
  exact hPast

theorem Bounded.withBatch (hBound : h.Bounded limit) (batch : Option Batch) :
    { h with batch }.Bounded limit :=
  ⟨hBound.limit_eq, hBound.total⟩

/-- Recording a change keeps within the limit. -/
theorem Bounded.record (hBound : h.Bounded limit) (before : Node) (description : Option String) :
    (h.record before description).Bounded limit := by
  unfold History.record
  split
  · exact hBound.withBatch _
  · exact hBound.remember _

/-- Beginning a batch keeps within the limit. -/
theorem Bounded.beginBatch (hBound : h.Bounded limit) : h.beginBatch.Bounded limit := by
  unfold History.beginBatch
  split
  · exact hBound
  · exact hBound.withBatch _

/-- Closing a batch keeps within the limit. -/
theorem Bounded.endBatch (hBound : h.Bounded limit) : h.endBatch.Bounded limit := by
  unfold History.endBatch
  split
  · exact (hBound.withBatch none).remember _
  · exact hBound.withBatch none

/-- The future has room for what the past gives up. -/
theorem Bounded.push_future (hBound : h.Bounded limit) {s : Snapshot} {past : List Snapshot}
    (hPast : h.past = s :: past) (t : Snapshot) : push h.limit t h.future = t :: h.future := by
  rw [push_eq_cons, hBound.limit_eq]
  refine congrArg (t :: ·) (if_neg ?_)
  rintro ⟨hLimit, hFull⟩
  have hTotal := hBound.total (Nat.ne_of_gt hLimit)
  rw [hPast, List.length_cons] at hTotal
  omega

/-- And the past has room for what the future gives up. -/
theorem Bounded.push_past (hBound : h.Bounded limit) {s : Snapshot} {future : List Snapshot}
    (hFuture : h.future = s :: future) (t : Snapshot) : push h.limit t h.past = t :: h.past := by
  rw [push_eq_cons, hBound.limit_eq]
  refine congrArg (t :: ·) (if_neg ?_)
  rintro ⟨hLimit, hFull⟩
  have hTotal := hBound.total (Nat.ne_of_gt hLimit)
  rw [hFuture, List.length_cons] at hTotal
  omega

/-! ## Steps back and forth -/

/-- Without an open batch there is nothing to close. -/
theorem endBatch_of_none (hBatch : h.batch = none) : h.endBatch = h := by
  obtain ⟨limit, past, future, batch⟩ := h
  obtain rfl : batch = none := hBatch
  rfl

theorem batch_endBatch (h : History) : h.endBatch.batch = none := by
  unfold endBatch
  split <;> rfl

/-- The batch is closed before anything else is done, so it may be closed already. -/
theorem undo_endBatch (h : History) (current : Node) :
    h.endBatch.undo current = h.undo current := by
  unfold undo
  rw [endBatch_of_none (batch_endBatch h)]

theorem redo_endBatch (h : History) (current : Node) :
    h.endBatch.redo current = h.redo current := by
  unfold redo
  rw [endBatch_of_none (batch_endBatch h)]

/-- The most recent tree of the past comes back, and the current one goes to the
future under the same description. -/
theorem undo_of_past_eq_cons (hBatch : h.batch = none) (hBound : h.Bounded limit) {s : Snapshot}
    {past : List Snapshot} (hPast : h.past = s :: past) (current : Node) :
    h.undo current =
      (some s.tree, { h with past, future := ⟨current, s.description⟩ :: h.future }) := by
  simp only [undo, endBatch_of_none hBatch, hBound.push_future hPast]
  rw [hPast]

theorem undo_of_past_eq_nil (hBatch : h.batch = none) (hPast : h.past = []) (current : Node) :
    h.undo current = (none, h) := by
  simp only [undo, endBatch_of_none hBatch, hPast]

/-- The most recent tree of the future comes back, and the current one goes to the past
under the same description. -/
theorem redo_of_future_eq_cons (hBatch : h.batch = none) (hBound : h.Bounded limit) {s : Snapshot}
    {future : List Snapshot} (hFuture : h.future = s :: future) (current : Node) :
    h.redo current =
      (some s.tree, { h with past := ⟨current, s.description⟩ :: h.past, future }) := by
  simp only [redo, endBatch_of_none hBatch, hBound.push_past hFuture]
  rw [hFuture]

theorem redo_of_future_eq_nil (hBatch : h.batch = none) (hFuture : h.future = [])
    (current : Node) : h.redo current = (none, h) := by
  simp only [redo, endBatch_of_none hBatch, hFuture]

/-- A snapshot that is passed to the other side counts there instead. -/
theorem Bounded.undo (hBound : h.Bounded limit) (current : Node) :
    (h.undo current).2.Bounded limit := by
  have hEnd := hBound.endBatch
  have hBatch := batch_endBatch h
  rw [← undo_endBatch]
  cases hPast : h.endBatch.past with
  | nil =>
    rw [undo_of_past_eq_nil hBatch hPast]
    exact hEnd
  | cons s past =>
    rw [undo_of_past_eq_cons hBatch hEnd hPast]
    refine ⟨hEnd.limit_eq, fun hLimit => ?_⟩
    have hTotal := hEnd.total hLimit
    rw [hPast, List.length_cons] at hTotal
    show past.length + (h.endBatch.future.length + 1) ≤ limit
    omega

/-- Redoing keeps within the limit in the same way. -/
theorem Bounded.redo (hBound : h.Bounded limit) (current : Node) :
    (h.redo current).2.Bounded limit := by
  have hEnd := hBound.endBatch
  have hBatch := batch_endBatch h
  rw [← redo_endBatch]
  cases hFuture : h.endBatch.future with
  | nil =>
    rw [redo_of_future_eq_nil hBatch hFuture]
    exact hEnd
  | cons s future =>
    rw [redo_of_future_eq_cons hBatch hEnd hFuture]
    refine ⟨hEnd.limit_eq, fun hLimit => ?_⟩
    have hTotal := hEnd.total hLimit
    rw [hFuture, List.length_cons] at hTotal
    show h.endBatch.past.length + 1 + future.length ≤ limit
    omega

/-- **Redoing takes back what undoing did**, the history included. -/
theorem redo_undo (hBatch : h.batch = none) (hBound : h.Bounded limit) {s : Snapshot}
    {past : List Snapshot} (hPast : h.past = s :: past) (current : Node) :
    (h.undo current).2.redo s.tree = (some current, h) := by
  have hNext := hBound.undo current
  have hUndo := undo_of_past_eq_cons hBatch hBound hPast current
  have hFuture : (h.undo current).2.future = ⟨current, s.description⟩ :: h.future := by rw [hUndo]
  have hOpen : (h.undo current).2.batch = none := by
    rw [hUndo]
    exact hBatch
  rw [redo_of_future_eq_cons hOpen hNext hFuture, hUndo]
  -- the snapshot goes back to where it came from
  show (some current, (⟨h.limit, s :: past, h.future, h.batch⟩ : History)) = _
  rw [← hPast]

/-- **And undoing takes back what redoing did.** -/
theorem undo_redo (hBatch : h.batch = none) (hBound : h.Bounded limit) {s : Snapshot}
    {future : List Snapshot} (hFuture : h.future = s :: future) (current : Node) :
    (h.redo current).2.undo s.tree = (some current, h) := by
  have hNext := hBound.redo current
  have hRedo := redo_of_future_eq_cons hBatch hBound hFuture current
  have hPast : (h.redo current).2.past = ⟨current, s.description⟩ :: h.past := by rw [hRedo]
  have hOpen : (h.redo current).2.batch = none := by
    rw [hRedo]
    exact hBatch
  rw [undo_of_past_eq_cons hOpen hNext hPast, hRedo]
  show (some current, (⟨h.limit, h.past, s :: future, h.batch⟩ : History)) = _
  rw [← hFuture]

end Bounded

/-! ## The open batch -/

section Batch

variable {limit : Nat} {h : History} {s : Snapshot} {side : List Snapshot}

/-- The tree that the open batch goes back to, if something was recorded in it. -/
def pending? (h : History) : Option Node :=
  h.batch.bind Batch.before

/-- Whether the open batch has recorded a change. -/
def isPending (h : History) : Bool :=
  h.pending?.isSome

/-- In a batch, recording keeps the tree that is there; outside, it leaves no
batch behind. -/
theorem pending?_record (h : History) (before : Node) (description : Option String) :
    (h.record before description).pending? = h.batch.map fun b => b.before.getD before := by
  unfold pending? History.record
  cases hBatch : h.batch with
  | none =>
    show h.batch.bind Batch.before = none
    rw [hBatch]
    rfl
  | some b =>
    obtain ⟨_ | first, _⟩ := b <;> rfl

/-- A batch that has recorded a tree is remembered as one change. -/
theorem endBatch_of_recorded {before : Node} {description : Option String}
    (hBatch : h.batch = some ⟨some before, description⟩) :
    h.endBatch = { h with batch := none }.remember ⟨before, description⟩ := by
  unfold History.endBatch
  rw [hBatch]

/-- A batch that has recorded none leaves no trace. -/
theorem endBatch_of_not_pending (hNot : h.isPending = false) :
    h.endBatch = { h with batch := none } := by
  obtain ⟨limit, past, future, _ | ⟨_ | before, description⟩⟩ := h
  · rfl
  · rfl
  · -- here something was recorded
    exact absurd hNot nofun

/-- A batch is pending if it has recorded a tree. -/
theorem exists_recorded (hPending : h.isPending = true) :
    ∃ before description, h.batch = some ⟨some before, description⟩ := by
  obtain ⟨limit, past, future, _ | ⟨_ | before, description⟩⟩ := h
  · exact absurd hPending nofun
  · exact absurd hPending nofun
  · exact ⟨before, description, rfl⟩

/-- Closing the batch changes nothing exactly if none is open. -/
theorem endBatch_eq_self_iff : h.endBatch = h ↔ h.batch = none := by
  constructor
  · intro hEq
    rw [← hEq]
    exact batch_endBatch h
  · exact endBatch_of_none

/-- A recorded change costs a side within the limit a snapshot only if it is full. -/
theorem Bounded.remember_eq (hBound : h.Bounded limit) (s : Snapshot) :
    h.remember s = { h with
      past := s :: if 0 < limit ∧ h.past.length = limit then h.past.dropLast else h.past
      future := [] } := by
  have hFull : (0 < limit ∧ limit ≤ h.past.length) = (0 < limit ∧ h.past.length = limit) := by
    refine propext (and_congr_right fun hLimit => ?_)
    have hLe := hBound.length_past_le (Nat.ne_of_gt hLimit)
    omega
  rw [History.remember, push_eq_cons, hBound.limit_eq]
  simp only [hFull]

end Batch

end History

end Spintax
