import Spintax.Lexeme.Matching
import Spintax.Proofs.Normal
import Spintax.Proofs.Runs

/-!
# Spintax — reports and matching

What reading reports is what matching braces leaves over. Matching goes over a
text once, from left to right; reading looks ahead for the end of a choice and
comes back for its options, so the same brace is seen several times. The two
agree because a closed run changes nothing in a matching (`foldl_step_closed`)
and is read without a report, so that everything left over stands on one line
of choices that reach to the end of the text.

* `reportsOf_eq_diagnostics` — for a run that reaches to the end;
* `diagnostics_ofText` — for a text, with the order of the reports.
-/

namespace Spintax

/-! ## Matching inside an option -/

namespace Matching

open Lexeme (levelAfter Closed)

theorem step_of_bar {l : Lexeme} (h : l.token = .bar) (b : Matching) : step b l = b := by
  simp [step, h]

/-- What is neither a brace nor a bar leaves the matching as it is. -/
theorem step_of_not_isStructural {l : Lexeme} (h : l.isStructural = false) (b : Matching) :
    step b l = b := by
  obtain ⟨t, pos⟩ := l
  cases t <;> simp_all [step, Lexeme.isStructural]

/-- A lexeme that stays inside its option touches only the braces opened there. -/
theorem step_of_levelAfter {m n : Nat} {l : Lexeme} (h : l.token.levelAfter m = some n)
    (inner : List Nat) (hLen : inner.length = m) :
    ∃ inner' : List Nat, inner'.length = n ∧ ∀ outer loose,
      step ⟨inner ++ outer, loose⟩ l = ⟨inner' ++ outer, loose⟩ := by
  obtain ⟨t, pos⟩ := l
  cases t with
  | opening =>
    obtain rfl := Option.some.inj h
    exact ⟨pos :: inner, by rw [List.length_cons, hLen], fun _ _ => rfl⟩
  | closing =>
    cases inner with
    | nil => simp_all [Token.levelAfter]
    | cons p inner =>
      rw [List.length_cons] at hLen
      simp only [Token.levelAfter] at h
      -- the brace that it closes was opened inside
      rw [if_neg (by omega), Option.some.injEq] at h
      exact ⟨inner, by omega, fun _ _ => rfl⟩
  | bar =>
    simp only [Token.levelAfter] at h
    split at h
    · exact absurd h (by simp)
    · obtain rfl := Option.some.inj h
      exact ⟨inner, hLen, fun _ _ => step_of_bar rfl _⟩
  | _ =>
    obtain rfl := Option.some.inj h
    exact ⟨inner, hLen, fun _ _ => step_of_not_isStructural (by simp [Lexeme.isStructural]) _⟩

/-- A run that stays inside its option opens braces and closes its own; those
that were open before, and the loose ones, it leaves alone. -/
theorem foldl_step_of_levelAfter {m n : Nat} {ls : List Lexeme} (h : levelAfter m ls = some n)
    (inner : List Nat) (hLen : inner.length = m) :
    ∃ inner' : List Nat, inner'.length = n ∧ ∀ outer loose,
      ls.foldl step ⟨inner ++ outer, loose⟩ = ⟨inner' ++ outer, loose⟩ := by
  induction ls generalizing m inner with
  | nil =>
    obtain rfl := Option.some.inj h
    exact ⟨inner, hLen, fun _ _ => rfl⟩
  | cons l ls ih =>
    rw [Lexeme.levelAfter_cons, Option.bind_eq_some_iff] at h
    obtain ⟨i, hi, hls⟩ := h
    -- the braces opened inside lie on top of the others after each lexeme
    obtain ⟨inner₁, hLen₁, hStep⟩ := step_of_levelAfter hi inner hLen
    obtain ⟨inner', hLen', hRest⟩ := ih hls inner₁ hLen₁
    exact ⟨inner', hLen', fun outer loose => by rw [List.foldl_cons, hStep, hRest]⟩

/-- A closed run leaves nothing over. -/
theorem foldl_step_closed {ls : List Lexeme} (h : Closed ls) (b : Matching) :
    ls.foldl step b = b := by
  obtain ⟨inner', hLen', hFold⟩ := foldl_step_of_levelAfter h [] rfl
  rw [List.eq_nil_of_length_eq_zero hLen'] at hFold
  exact hFold b.opened b.loose

/-- A closed choice closes the brace in front of it and leaves nothing else over. -/
theorem foldl_step_of_rest {ls r : List Lexeme} (h : (Body.ofLexemes 0 ls).rest? = some r)
    (pos : Nat) (opened loose : List Nat) :
    ls.foldl step ⟨pos :: opened, loose⟩ = r.foldl step ⟨opened, loose⟩ := by
  induction ls using Body.cut_induction with
  | last o k hk => exact absurd h (by simp)
  | close o l r' ho hTok =>
    obtain rfl := Option.some.inj h
    rw [List.foldl_append, foldl_step_closed ho, List.foldl_cons]
    simp [step, hTok]
  | next o l r' ho hTok ih =>
    rw [List.foldl_append, foldl_step_closed ho, List.foldl_cons, step_of_bar hTok]
    exact ih h

/-- Of a choice that is not closed, only the last option counts. -/
theorem foldl_step_of_rest_eq_none {ls : List Lexeme} {init : List (List Lexeme)}
    {last : List Lexeme} (h : (Body.ofLexemes 0 ls).rest? = none)
    (hOptions : (Body.ofLexemes 0 ls).options = init ++ [last]) (b : Matching) :
    ls.foldl step b = last.foldl step b := by
  induction ls using Body.cut_induction generalizing init with
  | last o k hk =>
    have hOne : [] ++ [o] = init ++ [last] := hOptions
    obtain ⟨-, hLast⟩ := List.append_inj' hOne rfl
    obtain rfl : o = last := List.singleton_inj.mp hLast
    rfl
  | close o l r' ho hTok => exact absurd h (by simp)
  | next o l r' ho hTok ih =>
    rw [List.foldl_append, foldl_step_closed ho, List.foldl_cons, step_of_bar hTok]
    -- this option is not the last, for another one follows its bar
    cases init with
    | nil => simp [Body.options] at hOptions
    | cons x init => exact ih h (List.cons.inj hOptions).2

/-- The matching of a run is that of its braces and bars. -/
theorem foldl_step_filter_isStructural (ls : List Lexeme) (b : Matching) :
    (ls.filter Lexeme.isStructural).foldl step b = ls.foldl step b := by
  induction ls generalizing b with
  | nil => rfl
  | cons l ls ih =>
    rw [List.filter_cons, List.foldl_cons]
    split
    · rw [List.foldl_cons, ih]
    · next hl => rw [ih, step_of_not_isStructural (by simpa using hl)]

/-- Trimming changes nothing of what is left over. -/
theorem foldl_step_trim (ls : List Lexeme) (b : Matching) :
    (Lexeme.trim ls).foldl step b = ls.foldl step b := by
  rw [← foldl_step_filter_isStructural, Lexeme.filter_isStructural_trim,
    foldl_step_filter_isStructural]

end Matching

/-! ## The end of the text -/

/-- A text with characters in it takes up bytes. -/
theorem Text.byteLength_pos {s : List Char} (h : s ≠ []) : 0 < Text.byteLength s := by
  obtain ⟨c, t, rfl⟩ := List.exists_cons_of_ne_nil h
  rw [Text.byteLength_cons]
  exact Nat.add_pos_left (Char.utf8Size_pos c) _

namespace Lexeme

/-- A run laid out up to the byte position `length`. -/
def EndsAt (length : Nat) (ls : List Lexeme) : Prop :=
  ∃ pos ts, ls = place pos ts ∧ pos + Text.byteLength (ts.flatMap Token.spelling) = length

theorem endsAt_ofText (s : List Char) : EndsAt (Text.byteLength s) (ofText s) :=
  ⟨0, Token.ofText s, rfl, by rw [Token.spelling_ofText, Nat.zero_add]⟩

/-- Behind the first lexeme of a run the others take up what is left of the length. -/
theorem EndsAt.tail {length : Nat} {l : Lexeme} {ls : List Lexeme} (h : EndsAt length (l :: ls)) :
    l.pos + Text.byteLength l.spelling + Text.byteLength (spellAll ls) = length ∧
      EndsAt length ls := by
  obtain ⟨pos, ts, hPlace, hLen⟩ := h
  cases ts with
  | nil => simp [place] at hPlace
  | cons t ts =>
    obtain ⟨rfl, rfl⟩ := List.cons.inj hPlace
    rw [List.flatMap_cons, Text.byteLength_append, ← Nat.add_assoc] at hLen
    refine ⟨?_, pos + Text.byteLength t.spelling, ts, rfl, hLen⟩
    have hSpell : spellAll (place (pos + Text.byteLength t.spelling) ts) =
        ts.flatMap Token.spelling := by
      rw [← map_token_place (pos + Text.byteLength t.spelling) ts, List.flatMap_map,
        map_token_place]
      rfl
    rw [hSpell]
    exact hLen

/-- The end of a run is laid out up to the same position as the run. -/
theorem EndsAt.of_suffix {length : Nat} {ls r : List Lexeme} (h : EndsAt length ls)
    (hSuffix : r <:+ ls) : EndsAt length r := by
  obtain ⟨xs, rfl⟩ := hSuffix
  induction xs with
  | nil => exact h
  | cons x xs ih => exact ih (EndsAt.tail h).2

/-- Where a text does not end with a blank, nothing is trimmed at its end. -/
theorem trimEnd_ofText {s : List Char} (h : Text.endsBlank s = false) :
    trimEnd (ofText s) = ofText s := by
  apply trimEnd_eq_self
  rw [spellAll_ofText]
  exact Text.trimEnd_eq_self_iff.mpr h

theorem trimEnd_of_suffix {ls r : List Lexeme} (h : trimEnd ls = ls) (hSuffix : r <:+ ls) :
    trimEnd r = r := by
  obtain ⟨xs, rfl⟩ := hSuffix
  exact trimEnd_of_append h

/-- A brace is the last byte of the text just when nothing follows it. -/
theorem EndsAt.openReport_eq {length : Nat} {l : Lexeme} {ls : List Lexeme}
    (h : EndsAt length (l :: ls)) (hTok : l.token = .opening) :
    Matching.openReport length l.pos =
      if ls = [] then .strayOpen l.pos else .unterminatedChoice l.pos := by
  have hLen := h.tail.1
  have hOne : Text.byteLength l.spelling = 1 := by rw [spelling, hTok]; rfl
  rw [Matching.openReport]
  cases ls with
  | nil =>
    rw [if_pos rfl, if_pos (by rw [← hLen, hOne]; rfl)]
  | cons m ms =>
    have hPos : 0 < Text.byteLength (spellAll (m :: ms)) :=
      Text.byteLength_pos (mt spellAll_eq_nil.mp (List.cons_ne_nil m ms))
    -- what follows takes at least one byte
    have hNot : ¬ l.pos + 1 = length := by
      rw [hOne] at hLen
      omega
    rw [if_neg hNot, if_neg (List.cons_ne_nil m ms)]

end Lexeme

/-! ## Reports of a run -/

/-- Without a report on depth, a closed run has no report at all. -/
theorem reportsOf_eq_nil_of_closed {maxDepth depth : Nat} {ls : List Lexeme}
    (h : Lexeme.Closed ls)
    (hDeep : ∀ d ∈ reportsOf maxDepth depth ls, d.isNestingTooDeep = false) :
    reportsOf maxDepth depth ls = [] := by
  rw [List.eq_nil_iff_forall_not_mem]
  intro d hd
  have := isNestingTooDeep_of_closed maxDepth depth ls h d hd
  rw [hDeep d hd] at this
  exact Bool.false_ne_true this

/-- Options that are closed runs have nothing to report, if they do not nest too deep. -/
theorem flatMap_optionReports_eq_nil {maxDepth depth : Nat} {os : List (List Lexeme)}
    (h : ∀ o ∈ os, Lexeme.Closed o)
    (hDeep : ∀ d ∈ os.flatMap (optionReports (reportsOf maxDepth depth)),
      d.isNestingTooDeep = false) :
    os.flatMap (optionReports (reportsOf maxDepth depth)) = [] := by
  rw [List.flatMap_eq_nil_iff]
  intro o ho
  rw [optionReports_reportsOf]
  refine reportsOf_eq_nil_of_closed (h o ho).trim fun d hd => hDeep d ?_
  rw [List.mem_flatMap]
  exact ⟨o, ho, by rwa [optionReports_reportsOf]⟩

/-- An option in which no brace opens is closed. -/
theorem closed_of_ne_opening {ls : List Lexeme} {k : Nat} (h : Lexeme.levelAfter 0 ls = some k)
    (hNone : ∀ l ∈ ls, l.token ≠ .opening) : Lexeme.Closed ls := by
  induction ls with
  | nil => rfl
  | cons l ls ih =>
    rw [Lexeme.levelAfter_cons, Option.bind_eq_some_iff] at h
    obtain ⟨i, hi, hls⟩ := h
    have hTok := hNone l (List.mem_cons_self ..)
    obtain rfl : i = 0 := by cases ht : l.token <;> simp_all [Token.levelAfter]
    rw [Lexeme.Closed, Lexeme.levelAfter_cons, hi]
    exact ih hls fun l hl => hNone l (List.mem_cons_of_mem _ hl)

/-- **The reports of a run are what matching leaves over**, for a run that
reaches to the end of a text of `length` bytes. Loose closing braces come
before all others, so those of earlier lexemes may be set in front. -/
theorem reportsOf_eq_diagnostics {maxDepth length : Nat} (depth : Nat) (ls : List Lexeme)
    (loose : List Nat) (hEnds : Lexeme.EndsAt length ls) (hTrim : Lexeme.trimEnd ls = ls)
    (hDeep : ∀ d ∈ reportsOf maxDepth depth ls, d.isNestingTooDeep = false)
    (hInside : depth = 0 → ∃ k, Lexeme.levelAfter 0 ls = some k) :
    (ls.foldl Matching.step ⟨[], loose⟩).diagnostics length =
      loose.reverse.map .unmatchedClose ++ reportsOf maxDepth depth ls := by
  induction depth generalizing ls loose with
  | zero =>
    -- without a brace that opens, a run inside an option is closed
    obtain ⟨k, hk⟩ := hInside rfl
    have hClosed := closed_of_ne_opening hk (ne_opening_of_deep hDeep)
    rw [Matching.foldl_step_closed hClosed, reportsOf_eq_nil_of_closed hClosed hDeep]
    rfl
  | succ depth ihDepth =>
    induction ls using Lexeme.run_induction generalizing loose with
    | nil => rw [reportsOf_nil]; rfl
    | literal l ls hTok ih =>
      rw [reportsOf_literal hTok] at hDeep ⊢
      have hDeepRest := fun d hd => hDeep d (List.mem_append_right _ hd)
      have hSuffix := List.suffix_cons l ls
      have hRest := fun loose => ih loose (hEnds.of_suffix hSuffix)
        (Lexeme.trimEnd_of_suffix hTrim hSuffix) hDeepRest (by simp)
      rw [List.foldl_cons]
      -- only a closing brace changes anything: it is loose, and its report comes first
      cases ht : l.token with
      | opening => exact absurd ht hTok
      | closing =>
        have hStep : Matching.step ⟨[], loose⟩ l = ⟨[], l.pos :: loose⟩ := by
          simp [Matching.step, ht]
        have hReport : Item.literalReport l = [.unmatchedClose l.pos] := by
          simp [Item.literalReport, ht]
        rw [hStep, hRest, hReport, List.reverse_cons, List.map_append, List.append_assoc]
        rfl
      | _ =>
        have hReport : Item.literalReport l = [] := by simp [Item.literalReport, ht]
        have hStep : Matching.step ⟨[], loose⟩ l = ⟨[], loose⟩ := by
          obtain ⟨t, pos⟩ := l
          subst ht
          rfl
        rw [hStep, hRest, hReport, List.nil_append]
    | stray l hTok =>
      have hReport := hEnds.openReport_eq hTok
      rw [if_pos rfl] at hReport
      rw [reportsOf_stray hTok, List.foldl_cons, List.foldl_nil]
      simp [Matching.step, hTok, Matching.diagnostics, hReport]
    | closed l ls r hTok hr ih =>
      rw [reportsOf_closed hTok hr] at hDeep ⊢
      -- the choice matches its braces and reports nothing; both go on behind it
      have hNone := flatMap_optionReports_eq_nil (Body.closed_of_mem_options hr)
        fun d hd => hDeep d (List.mem_append_left _ hd)
      have hSuffix := Body.suffix_cons_of_rest hr l
      have hStep : Matching.step ⟨[], loose⟩ l = ⟨[l.pos], loose⟩ := by
        simp [Matching.step, hTok]
      rw [List.foldl_cons, hStep, Matching.foldl_step_of_rest hr, hNone, List.nil_append]
      exact ih loose (hEnds.of_suffix hSuffix) (Lexeme.trimEnd_of_suffix hTrim hSuffix)
        (fun d hd => hDeep d (List.mem_append_right _ hd)) (by simp)
    | unclosed l ls hTok hne hr =>
      -- all options but the last are closed and drop out of both sides
      obtain ⟨init, last, hOptions, hInit, ⟨k, hk⟩, hLastSuffix⟩ := Body.exists_last hr
      rw [reportsOf_unclosed hTok hne hr, hOptions, List.flatMap_append, List.flatMap_singleton,
        optionReports_reportsOf] at hDeep ⊢
      have hNone := flatMap_optionReports_eq_nil hInit fun d hd =>
        hDeep d (List.mem_cons_of_mem _ (List.mem_append_left _ hd))
      -- the last option reaches to the end, also when it is trimmed
      have hSuffix := hLastSuffix.trans (List.suffix_cons l ls)
      have hTrimLast : Lexeme.trim last <:+ l :: ls := by
        rw [Lexeme.trim, Lexeme.trimEnd_of_suffix hTrim
          ((List.dropWhile_suffix _).trans hSuffix)]
        exact (List.dropWhile_suffix _).trans hSuffix
      have hLast := ihDepth (Lexeme.trim last) [] (hEnds.of_suffix hTrimLast)
        (Lexeme.trimEnd_of_suffix hTrim hTrimLast)
        (fun d hd => hDeep d (List.mem_cons_of_mem _ (List.mem_append_right _ hd)))
        (fun _ => ⟨k, by rw [Lexeme.levelAfter_trim]; exact hk⟩)
      -- what it leaves open comes on top of the brace of this choice
      obtain ⟨inner, -, hFold⟩ := Matching.foldl_step_of_levelAfter hk [] rfl
      have hAlone : last.foldl Matching.step ⟨[], []⟩ = ⟨inner ++ [], []⟩ := hFold [] []
      rw [List.reverse_nil, List.map_nil, List.nil_append, Matching.foldl_step_trim,
        hAlone] at hLast
      have hStep : Matching.step ⟨[], loose⟩ l = ⟨[] ++ [l.pos], loose⟩ := by
        simp [Matching.step, hTok]
      have hReport := hEnds.openReport_eq hTok
      rw [if_neg hne] at hReport
      rw [List.foldl_cons, Matching.foldl_step_of_rest_eq_none hr hOptions, hStep, hFold, hNone,
        ← hLast]
      simp [Matching.diagnostics, hReport]

/-! ## Texts -/

namespace Matching

/-- The braces left over stand in the order in which they were met, the loose
ones first, and all of them before `bound`. -/
structure Ordered (bound : Nat) (b : Matching) : Prop where
  opened : b.opened.Pairwise (· > ·)
  loose : b.loose.Pairwise (· > ·)
  loose_lt_opened : ∀ x ∈ b.loose, ∀ y ∈ b.opened, x < y
  opened_lt : ∀ x ∈ b.opened, x < bound
  loose_lt : ∀ x ∈ b.loose, x < bound

/-- Braces that stand before a bound stand before any later one. -/
theorem Ordered.mono {m n : Nat} {b : Matching} (h : Ordered m b) (hLe : m ≤ n) :
    Ordered n b :=
  { h with
    opened_lt := fun x hx => Nat.lt_of_lt_of_le (h.opened_lt x hx) hLe
    loose_lt := fun x hx => Nat.lt_of_lt_of_le (h.loose_lt x hx) hLe }

/-- One more lexeme keeps the braces that are left over in order. -/
theorem Ordered.step {b : Matching} {l : Lexeme} (h : Ordered l.pos b) :
    Ordered (l.pos + 1) (b.step l) := by
  have hMono := h.mono (Nat.le_succ l.pos)
  unfold Matching.step
  split
  · exact
      { hMono with
        opened := List.pairwise_cons.mpr ⟨h.opened_lt, h.opened⟩
        loose_lt_opened := by
          intro x hx y hy
          rcases List.mem_cons.mp hy with rfl | hy
          · exact h.loose_lt x hx
          · exact h.loose_lt_opened x hx y hy
        opened_lt := by
          intro x hx
          rcases List.mem_cons.mp hx with rfl | hx
          · exact Nat.lt_succ_self _
          · exact hMono.opened_lt x hx }
  · next p opened ht hOpened =>
    have hMem : ∀ x ∈ opened, x ∈ b.opened := fun x hx => hOpened ▸ List.mem_cons_of_mem p hx
    exact
      { hMono with
        opened := (List.pairwise_cons.mp (hOpened ▸ h.opened)).2
        loose_lt_opened := fun x hx y hy => h.loose_lt_opened x hx y (hMem y hy)
        opened_lt := fun x hx => hMono.opened_lt x (hMem x hx) }
  · next ht hOpened =>
    exact
      { hMono with
        loose := List.pairwise_cons.mpr ⟨h.loose_lt, h.loose⟩
        loose_lt_opened := by simp [hOpened]
        loose_lt := by
          intro x hx
          rcases List.mem_cons.mp hx with rfl | hx
          · exact Nat.lt_succ_self _
          · exact hMono.loose_lt x hx }
  · exact hMono

/-- A whole run keeps them in order. -/
theorem ordered_foldl_step {b : Matching} (pos : Nat) (ts : List Token) (h : Ordered pos b) :
    ∃ bound, Ordered bound ((Lexeme.place pos ts).foldl Matching.step b) := by
  induction ts generalizing pos b with
  | nil => exact ⟨pos, h⟩
  | cons t ts ih =>
    rw [Lexeme.place, List.foldl_cons]
    -- every lexeme takes a byte at least, so positions grow
    have hSize : 0 < Text.byteLength t.spelling :=
      Text.byteLength_pos (Lexeme.spelling_ne_nil ⟨t, pos⟩)
    exact ih (pos + Text.byteLength t.spelling)
      ((Ordered.step (l := ⟨t, pos⟩) h).mono (by show pos + 1 ≤ _; omega))

/-- Whatever is wrong with an open brace, the report names its position. -/
theorem pos_openReport (length pos : Nat) : (openReport length pos).pos = pos := by
  unfold openReport
  split <;> rfl

/-- Braces that are left over in order are reported in order. -/
theorem Ordered.pairwise_diagnostics {bound : Nat} {b : Matching} (h : Ordered bound b)
    (length : Nat) : (b.diagnostics length).Pairwise fun d e => d.pos < e.pos := by
  rw [Matching.diagnostics, List.pairwise_append]
  refine ⟨?_, ?_, ?_⟩
  · rw [List.pairwise_map, List.pairwise_reverse]
    exact h.loose
  · rw [List.pairwise_map, List.pairwise_reverse]
    exact h.opened.imp fun hlt => by rwa [pos_openReport, pos_openReport]
  · intro d hd e he
    obtain ⟨x, hx, rfl⟩ := List.mem_map.mp hd
    obtain ⟨y, hy, rfl⟩ := List.mem_map.mp he
    rw [pos_openReport]
    exact h.loose_lt_opened x (List.mem_reverse.mp hx) y (List.mem_reverse.mp hy)

/-- There is nothing to report exactly if every brace has a partner. -/
theorem diagnostics_eq_nil {b : Matching} (length : Nat) :
    b.diagnostics length = [] ↔ b = balanced := by
  obtain ⟨opened, loose⟩ := b
  simp [Matching.diagnostics, balanced, and_comm]

end Matching

/-- **The reports on a text are the braces without a partner**, from left to
right: loose closing braces, then those that stay open. -/
theorem diagnostics_ofText {maxDepth : Nat} {s : List Char} (hDepth : 1 ≤ maxDepth)
    (hDeep : ∀ d ∈ (Reading.ofText maxDepth s).diagnostics, d.isNestingTooDeep = false) :
    (Reading.ofText maxDepth s).diagnostics =
        (Matching.ofLexemes (Lexeme.ofText (Text.normalize s))).diagnostics
          (Text.byteLength (Text.normalize s)) ∧
      (Reading.ofText maxDepth s).diagnostics.Pairwise (fun d e => d.pos < e.pos) ∧
      ((Reading.ofText maxDepth s).diagnostics = [] ↔
        Matching.ofLexemes (Lexeme.ofText (Text.normalize s)) = Matching.balanced) := by
  have hTrim := Lexeme.trimEnd_ofText (Text.endsBlank_normalize s)
  have hEq := reportsOf_eq_diagnostics maxDepth (Lexeme.ofText (Text.normalize s)) []
    (Lexeme.endsAt_ofText _) hTrim hDeep (fun h => absurd h (by omega))
  have hReports : (Reading.ofText maxDepth s).diagnostics =
      (Matching.ofLexemes (Lexeme.ofText (Text.normalize s))).diagnostics
        (Text.byteLength (Text.normalize s)) := hEq.symm
  have hStart : Matching.Ordered 0 Matching.balanced :=
    ⟨.nil, .nil, by simp [Matching.balanced], by simp [Matching.balanced],
      by simp [Matching.balanced]⟩
  -- the braces left over are in order after no lexeme, hence after all of them
  obtain ⟨bound, hOrdered⟩ := Matching.ordered_foldl_step 0 (Token.ofText (Text.normalize s)) hStart
  refine ⟨hReports, ?_, ?_⟩
  · rw [hReports]
    exact hOrdered.pairwise_diagnostics _
  · rw [hReports, Matching.diagnostics_eq_nil]

/-- A brace that closes nothing, one that is not closed, and a stray one, from left to
right. -/
theorem diagnostics_ofText_three :
    (Reading.ofText 2 ['a', '}', '{', 'b', '{']).diagnostics =
      [.unmatchedClose 1, .unterminatedChoice 2, .strayOpen 4] :=
  (diagnostics_ofText (s := ['a', '}', '{', 'b', '{']) (by decide) (by decide +kernel)).1.trans
    (by decide)

end Spintax
