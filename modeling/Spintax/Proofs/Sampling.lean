import Mathlib.Data.Stream.Init
import Spintax.Proofs.Listing
import Spintax.Sampling.Draws

/-!
# Spintax — what is drawn

Sampling a tree makes a walk through it: the picks that it asks for are those of
a walk, and what it renders is the rendering of that walk. Nothing is assumed
for this of the one who picks. The converse needs that any option can be picked
(`Picker.Free`): then every walk is made, from some state. Together with the
list, whose entries are the walks, sampling a tree that is listed renders the
entries of the list and nothing else.

A pick that is made from one word cannot reach more options than there are
words. The limit of a list is a word as well, so a listed tree never asks for
such a pick (`Node.Walk.among_le_count`).

* `Picker.recorded` — a picker that writes down what it is asked for;
* `Node.sample_recorded` — sampling makes a walk;
* `Node.exists_sample_of_walk` — every walk is made;
* `DrawSource.free_picker` — an endless stream of draws may pick anything;
* `Node.sample_listed` — sampling and the list.
-/

namespace Spintax

/-! ## Picks that are written down -/

namespace Picker

variable {σ : Type}

/-- The picks of another picker, written down one after the other. -/
def recorded (picker : Picker σ) : Picker (σ × List Pick) where
  pick n s :=
    let (i, next) := picker.pick n s.1
    (i, next, s.2 ++ [⟨n, i⟩])
  pick_lt s hn := picker.pick_lt s.1 hn

/-- A recorded pick is made in the same way and written down last. -/
theorem pick_recorded {picker : Picker σ} {n i : Nat} {s s' : σ} (h : picker.pick n s = (i, s'))
    (record : List Pick) :
    picker.recorded.pick n (s, record) = (i, s', record ++ [⟨n, i⟩]) := by
  rw [recorded]
  simp only [h]

/-- Any position may be picked, whatever is to come afterwards. A pick need not
reach further than a word does. -/
def Free (picker : Picker σ) : Prop :=
  ∀ (n i : Nat) (next : σ), i < n → n < UInt64.size → ∃ s, picker.pick n s = (i, next)

end Picker

namespace Node

variable {σ : Type} {picker : Picker σ}

/-- The picks that sampling a tree asks for, in order. -/
def asked (picker : Picker σ) (n : Node) (s : σ) : List Pick :=
  (n.sample picker.recorded (s, [])).2.2

/-! ## Sampling makes a walk -/

/-- A choice is sampled as the option that is picked. -/
theorem sample_choice {ns : List Node} {i : Nat} {n : Node} {s s' : σ}
    (hPick : picker.pick ns.length s = (i, s')) (hTaken : ns[i]? = some n) :
    (choice ns).sample picker s = n.sample picker s' := by
  cases ns with
  | nil => exact absurd hTaken (by simp)
  | cons m ms =>
    rw [sample, hPick]
    exact sampleAt_eq picker hTaken s'

/-- Sampling a node makes a walk, which comes after what is written down already. -/
def MakesWalk (picker : Picker σ) (n : Node) : Prop :=
  ∀ s record, ∃ w, n.Walk w (n.sample picker s).1 ∧
    n.sample picker.recorded (s, record) =
      ((n.sample picker s).1, (n.sample picker s).2, record ++ w)

/-- Sampling a sequence makes a walk through it, if sampling its nodes does. -/
theorem sampleAll_recorded {ns : List Node} (h : ∀ n ∈ ns, n.MakesWalk picker) (s : σ)
    (record : List Pick) :
    ∃ w, WalkAll ns w (sampleAll picker ns s).1 ∧
      sampleAll picker.recorded ns (s, record) =
        ((sampleAll picker ns s).1, (sampleAll picker ns s).2, record ++ w) := by
  induction ns generalizing s record with
  | nil => exact ⟨[], .nil, by simp [sampleAll]⟩
  | cons n ns ih =>
    rw [List.forall_mem_cons] at h
    obtain ⟨w, hWalk, hFirst⟩ := h.1 s record
    -- the others go on with the state and the record that the first node leaves
    obtain ⟨v, hRest, hOthers⟩ := ih h.2 (n.sample picker s).2 (record ++ w)
    refine ⟨w ++ v, .cons hWalk hRest, ?_⟩
    rw [sampleAll, hFirst]
    simp only [hOthers, sampleAll, List.append_assoc]

/-- **Sampling makes a walk**, whoever picks. -/
theorem sample_recorded (picker : Picker σ) (n : Node) : n.MakesWalk picker := by
  induction n using tree_induction with
  | text t =>
    intro s record
    exact ⟨[], .text t, by simp [sample]⟩
  | option t ns ih =>
    intro s record
    obtain ⟨w, hWalk, hAll⟩ := sampleAll_recorded ih s record
    refine ⟨w, .option hWalk, ?_⟩
    rw [sample, hAll]
    rfl
  | choice ns ih =>
    intro s record
    cases ns with
    | nil => exact ⟨[], .noOption, by simp [sample]⟩
    | cons m ms =>
      obtain ⟨i, s', hPick⟩ : ∃ i s', picker.pick (m :: ms).length s = (i, s') := ⟨_, _, rfl⟩
      -- the position that is picked is that of an option
      have hLt : i < (m :: ms).length := by
        have hPicked := picker.pick_lt (n := (m :: ms).length) s (Nat.succ_pos ms.length)
        rwa [hPick] at hPicked
      obtain ⟨n, hTaken⟩ : ∃ n, (m :: ms)[i]? = some n := ⟨_, List.getElem?_eq_getElem hLt⟩
      obtain ⟨w, hWalk, hOption⟩ :=
        ih n (List.mem_of_getElem? hTaken) s' (record ++ [⟨(m :: ms).length, i⟩])
      rw [sample_choice hPick hTaken, sample_choice (Picker.pick_recorded hPick record) hTaken,
        hOption]
      exact ⟨⟨(m :: ms).length, i⟩ :: w, .choice hTaken hWalk, by simp⟩
  | root ns ih =>
    intro s record
    obtain ⟨w, hWalk, hAll⟩ := sampleAll_recorded ih s record
    exact ⟨w, .root hWalk, hAll⟩

/-- The picks that are asked for make a walk, and to write them down changes
nothing else. -/
theorem walk_asked (picker : Picker σ) (n : Node) (s : σ) :
    n.Walk (n.asked picker s) (n.sample picker s).1 ∧
      n.sample picker.recorded (s, []) =
        ((n.sample picker s).1, (n.sample picker s).2, n.asked picker s) := by
  obtain ⟨w, hWalk, hRecorded⟩ := sample_recorded picker n s []
  have hAsked : n.asked picker s = w := by
    rw [asked, hRecorded]
    rfl
  rw [hAsked]
  exact ⟨hWalk, hRecorded⟩

/-! ## Every walk is made -/

/-- Every walk through the node is made from some state, whatever state it is
to lead to, as long as no pick is among more options than a word can tell
apart. -/
def MakesAll (picker : Picker σ) (n : Node) : Prop :=
  ∀ {w t}, n.Walk w t → (∀ p ∈ w, p.among < UInt64.size) → ∀ next, ∃ s, ∀ record,
    n.sample picker.recorded (s, record) = (t, next, record ++ w)

/-- Every walk through a sequence is made from some state, if this holds of its nodes. -/
theorem exists_sampleAll_of_walk {ns : List Node} (h : ∀ n ∈ ns, n.MakesAll picker)
    {w : List Pick} {t : List Char} (hWalk : WalkAll ns w t)
    (hSize : ∀ p ∈ w, p.among < UInt64.size) (next : σ) :
    ∃ s, ∀ record, sampleAll picker.recorded ns (s, record) = (t, next, record ++ w) := by
  induction ns generalizing w t with
  | nil =>
    cases hWalk
    exact ⟨next, fun record => by simp [sampleAll]⟩
  | cons n ns ih =>
    rw [List.forall_mem_cons] at h
    cases hWalk with
    | @cons _ _ w v t u hWalk hRest =>
      rw [List.forall_mem_append] at hSize
      -- from the end: where the others start is where the first node has to lead
      obtain ⟨s', hOthers⟩ := ih h.2 hRest hSize.2
      obtain ⟨s, hFirst⟩ := h.1 hWalk hSize.1 s'
      refine ⟨s, fun record => ?_⟩
      rw [sampleAll, hFirst]
      simp only [hOthers, List.append_assoc]

/-- **Every walk is made** if any option may be picked. -/
theorem exists_sample_of_walk (hFree : picker.Free) (n : Node) : n.MakesAll picker := by
  induction n using tree_induction with
  | text t =>
    intro w t hWalk _ next
    cases hWalk
    exact ⟨next, fun record => by simp [sample]⟩
  | option t ns ih =>
    intro w t hWalk hSize next
    cases hWalk with
    | option hWalk =>
      obtain ⟨s, hAll⟩ := exists_sampleAll_of_walk ih hWalk hSize next
      refine ⟨s, fun record => ?_⟩
      rw [sample, hAll]
  | choice ns ih =>
    intro w t hWalk hSize next
    cases hWalk with
    | noOption => exact ⟨next, fun record => by simp [sample]⟩
    | @choice _ i n w _ hTaken hWalk =>
      rw [List.forall_mem_cons] at hSize
      -- the state is found from the end: first the one the option is rendered in
      obtain ⟨s', hOption⟩ := ih n (List.mem_of_getElem? hTaken) hWalk hSize.2 next
      obtain ⟨hLt, -⟩ := List.getElem?_eq_some_iff.mp hTaken
      obtain ⟨s, hPick⟩ := hFree ns.length i s' hLt hSize.1
      refine ⟨s, fun record => ?_⟩
      rw [sample_choice (Picker.pick_recorded hPick record) hTaken, hOption, List.append_assoc,
        List.singleton_append]
  | root ns ih =>
    intro w t hWalk hSize next
    cases hWalk with
    | root hWalk => exact exists_sampleAll_of_walk ih hWalk hSize next

/-! ## How many options there are to pick from -/

/-- A choice with an option has as many renderings as its options together. -/
theorem count_choice {n : Node} {ns : List Node} (h : n ∈ ns) :
    (choice ns).count = countSum ns := by
  cases ns with
  | nil => exact absurd h (by simp)
  | cons m ms => rfl

/-- No option has more renderings than all of them together. -/
theorem count_le_countSum {n : Node} {ns : List Node} (h : n ∈ ns) : n.count ≤ countSum ns := by
  induction ns with
  | nil => exact absurd h (by simp)
  | cons m ms ih =>
    rw [countSum]
    rcases List.mem_cons.mp h with rfl | h
    · exact Nat.le_add_right ..
    · exact (ih h).trans (Nat.le_add_left ..)

/-- Each option has a rendering of its own. -/
theorem length_le_countSum (ns : List Node) : ns.length ≤ countSum ns := by
  induction ns with
  | nil => exact Nat.le_refl 0
  | cons n ns ih =>
    have hPos := n.count_pos
    rw [countSum, List.length_cons]
    omega

/-- No pick in a sequence is among more options than there are renderings, if this holds
of its nodes. -/
theorem among_le_of_walkAll {ns : List Node}
    (h : ∀ n ∈ ns, ∀ {w t}, n.Walk w t → ∀ p ∈ w, p.among ≤ n.count) {w : List Pick}
    {t : List Char} (hWalk : WalkAll ns w t) : ∀ p ∈ w, p.among ≤ countProduct ns := by
  induction ns generalizing w t with
  | nil =>
    cases hWalk
    simp
  | cons n ns ih =>
    rw [List.forall_mem_cons] at h
    have hPos : 0 < countProduct ns := countProduct_pos fun n _ => n.count_pos
    cases hWalk with
    | cons hWalk hRest =>
      intro p hp
      rw [countProduct]
      rcases List.mem_append.mp hp with hp | hp
      · exact (h.1 hWalk p hp).trans (Nat.le_mul_of_pos_right _ hPos)
      · exact (ih h.2 hRest p hp).trans (Nat.le_mul_of_pos_left _ n.count_pos)

/-- No pick of a walk is among more options than the tree has renderings. -/
theorem Walk.among_le_count {n : Node} {w : List Pick} {t : List Char} (h : n.Walk w t) :
    ∀ p ∈ w, p.among ≤ n.count := by
  induction n using tree_induction generalizing w t with
  | text s =>
    cases h
    simp
  | option s ns ih =>
    cases h with
    | option h =>
      rw [count]
      exact among_le_of_walkAll (fun n hn _ _ hWalk => ih n hn hWalk) h
  | choice ns ih =>
    cases h with
    | noOption => simp
    | @choice _ i n w _ hTaken h =>
      have hMem := List.mem_of_getElem? hTaken
      rw [count_choice hMem, List.forall_mem_cons]
      exact ⟨length_le_countSum ns, fun p hp => (ih n hMem h p hp).trans (count_le_countSum hMem)⟩
  | root ns ih =>
    cases h with
    | root h =>
      rw [count]
      exact among_le_of_walkAll (fun n hn _ _ hWalk => ih n hn hWalk) h

end Node

/-! ## Endless draws -/

/-- The zone does not leave out any low word that is less than the number of
alternatives. -/
theorem lt_succ_acceptZone {n r : Nat} (h : r < n) : r ≤ acceptZone n := by
  have hShift : n ≤ n <<< (63 - n.log2) := by
    rw [Nat.shiftLeft_eq]
    exact Nat.le_mul_of_pos_right n (Nat.two_pow_pos _)
  rw [acceptZone]
  omega

/-- Any alternative is chosen by some draw: by the least one whose high word it
is. -/
theorem exists_accept? {n i : Nat} (hi : i < n) (hn : n < UInt64.size) :
    ∃ v, accept? n v = some i := by
  obtain ⟨v, r, hProduct, hr⟩ : ∃ v r, v * n = UInt64.size * i + r ∧ r < n := by
    have hSplit := Nat.div_add_mod (UInt64.size * i + (n - 1)) n
    have hRest := Nat.mod_lt (UInt64.size * i + (n - 1)) (Nat.zero_lt_of_lt hi)
    refine ⟨(UInt64.size * i + (n - 1)) / n, n - 1 - (UInt64.size * i + (n - 1)) % n, ?_, ?_⟩
    · rw [Nat.mul_comm]
      omega
    · omega
  -- `n` draws are less than `n` words, so one draw is less than a word
  have hWord : v < UInt64.size := by
    refine Nat.lt_of_mul_lt_mul_right (a := n) ?_
    have hTop : UInt64.size * (i + 1) ≤ UInt64.size * n := Nat.mul_le_mul_left _ hi
    rw [Nat.mul_add] at hTop
    omega
  refine ⟨UInt64.ofNat v, ?_⟩
  have hLow : (UInt64.size * i + r) % UInt64.size = r := by
    rw [Nat.mul_add_mod, Nat.mod_eq_of_lt (hr.trans hn)]
  have hHigh : (UInt64.size * i + r) / UInt64.size = i := by
    rw [Nat.mul_add_div (by decide), Nat.div_eq_of_lt (hr.trans hn), Nat.add_zero]
  simp only [accept?, UInt64.toNat_ofNat_of_lt' hWord, hProduct, hLow, hHigh,
    if_pos (lt_succ_acceptZone hr)]

namespace DrawSource

variable {σ : Type}

/-- Draws that never end. -/
def endless (patience : Nat) : DrawSource (Stream' UInt64) where
  next draws := (draws.head, draws.tail)
  patience _ := patience

/-- If any draw may come next, any alternative may be picked. -/
theorem free_picker {source : DrawSource σ}
    (h : ∀ v next, ∃ s, source.next s = (v, next) ∧ 0 < source.patience s) :
    source.picker.Free := by
  intro n i next hi hn
  obtain ⟨v, hAccept⟩ := exists_accept? hi hn
  obtain ⟨s, hNext, hPatience⟩ := h v next
  obtain ⟨attempts, hAttempts⟩ := Nat.exists_eq_add_of_lt hPatience
  refine ⟨s, ?_⟩
  rw [picker]
  simp only [hAttempts, Nat.zero_add, pickWithin, hNext, hAccept]

/-- Endless draws leave any pick free, as any draw may come next. -/
theorem free_endless (patience : Nat) : (endless (patience + 1)).picker.Free :=
  free_picker fun v next => ⟨Stream'.cons v next, rfl, Nat.succ_pos patience⟩

end DrawSource

/-! ## Sampling and the list -/

namespace Node

variable {σ : Type} {picker : Picker σ}

/-- A walk leads to one of the renderings. -/
theorem mem_renderings_of_walk {n : Node} {w : List Pick} {t : List Char} (h : n.Walk w t) :
    t ∈ n.renderings := by
  rw [renderings_eq_map_text]
  exact List.mem_map_of_mem ((mem_picks_iff n ⟨w.map Pick.position, t⟩).mpr ⟨w, h, rfl⟩)

/-- Every sample is one that is drawn by itself, from some state. -/
theorem mem_samples {n : Node} {count : Nat} {s : σ} {t : List Char}
    (h : t ∈ (n.samples picker count s).1) : ∃ s', t = (n.sample picker s').1 := by
  induction count generalizing s with
  | zero => exact absurd h (by simp [samples])
  | succ count ih =>
    rcases List.mem_cons.mp h with rfl | h
    · exact ⟨s, rfl⟩
    · exact ih h

/-- **Sampling a tree that is listed**: whoever picks is asked for the picks of a
walk, one at each choice with options that it comes to, and what is rendered
stands in the list. If any option may be picked, every entry of the list is
rendered with the very picks of that entry, whatever is to come afterwards. -/
theorem sample_listed {n : Node} {limit : UInt64} {list : List (List Char)}
    (h : n.listing limit = .ok list) (picker : Picker σ) :
    (∀ s, n.sample picker.recorded (s, []) =
          ((n.sample picker s).1, (n.sample picker s).2, n.asked picker s) ∧
        n.Walk (n.asked picker s) (n.sample picker s).1 ∧
        (n.sample picker s).1 ∈ list) ∧
      (∀ count s, ∀ t ∈ (n.samples picker count s).1, t ∈ list) ∧
      (picker.Free → ∀ rest k, (hk : k < list.length) → ∃ p s,
        n.picks[k]? = some p ∧ p.text = list[k] ∧
          n.sample picker s = (list[k], rest) ∧
          (n.asked picker s).map Pick.position = p.picks) := by
  rw [listing_eq] at h
  split at h
  · next hCount =>
    obtain rfl := Except.ok.inj h
    have hMem (s : σ) : (n.sample picker s).1 ∈ n.renderings :=
      mem_renderings_of_walk (walk_asked picker n s).1
    refine ⟨fun s => ?_, ?_, ?_⟩
    · obtain ⟨hWalk, hRecorded⟩ := walk_asked picker n s
      exact ⟨hRecorded, hWalk, hMem s⟩
    · intro count s t ht
      obtain ⟨s', rfl⟩ := mem_samples ht
      exact hMem s'
    · intro hFree rest k hk
      obtain ⟨p, hEntry, hText⟩ : ∃ p, n.picks[k]? = some p ∧ p.text = n.renderings[k] := by
        rw [← Option.map_eq_some_iff, ← List.getElem?_map, ← renderings_eq_map_text]
        exact List.getElem?_eq_getElem hk
      -- the entry is listed for a walk, and some state makes the picker follow it
      obtain ⟨w, hWalk, hPicks⟩ := (mem_picks_iff n p).mp (List.mem_of_getElem? hEntry)
      -- no choice has more options than there are renderings, so each number of them is a word
      have hSize : ∀ q ∈ w, q.among < UInt64.size := by
        intro q hq
        have hAmong := hWalk.among_le_count q hq
        have hOne : 1 < UInt64.size := by decide
        exact (hAmong.trans hCount).trans_lt (Nat.max_lt.mpr ⟨limit.toNat_lt_size, hOne⟩)
      obtain ⟨s, hMade⟩ := exists_sample_of_walk hFree n hWalk hSize rest
      obtain ⟨-, hRecorded⟩ := walk_asked picker n s
      rw [hMade, List.nil_append] at hRecorded
      -- the same run was recorded twice: as it was made and as it was asked for
      obtain ⟨hRendered, hRest, hAsked⟩ :
          p.text = (n.sample picker s).1 ∧ rest = (n.sample picker s).2 ∧
            w = n.asked picker s := by
        simpa only [Prod.mk.injEq] using hRecorded
      refine ⟨p, s, hEntry, hText, Prod.ext ?_ hRest.symm, ?_⟩
      · rw [← hRendered, hText]
      · rw [← hAsked, hPicks]
  · exact absurd h nofun

/-- Endless draws make the second of three renderings of a tree, in which the
last choice has nothing to pick from. -/
theorem sample_listed_of_endless :
    let tree := root [
      choice [option ['a'] [choice [option ['x'] [], option ['y'] []]], option ['b'] []],
      choice []]
    let picker := (DrawSource.endless 4096).picker
    tree.listing 3 = .ok [['a', 'x'], ['a', 'y'], ['b']] ∧ picker.Free ∧
      ∀ rest, ∃ s, tree.sample picker s = (['a', 'y'], rest) ∧
        (tree.asked picker s).map Pick.position = [0, 1] := by
  intro tree picker
  have hListing : tree.listing 3 = .ok [['a', 'x'], ['a', 'y'], ['b']] := by decide
  have hFree : picker.Free := DrawSource.free_endless 4095
  refine ⟨hListing, hFree, fun rest => ?_⟩
  obtain ⟨-, -, hMade⟩ := sample_listed hListing picker
  obtain ⟨p, s, hEntry, -, hSample, hAsked⟩ := hMade hFree rest 1 (by decide)
  obtain rfl : (⟨[0, 1], ['a', 'y']⟩ : Picked) = p := Option.some.inj hEntry
  exact ⟨s, hSample, hAsked⟩

end Node

end Spintax
