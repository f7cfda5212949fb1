import Spintax.Proofs.Braces
import Spintax.Proofs.Depth

/-!
# Spintax — which braces are too deep

Where the levels are used up, reading reports the first brace of a run and
nothing else. Which braces these are can be told in one pass over the lexemes,
with two things kept in mind: how many braces are open, and whether the run that
lies at the limit has been reported already. A brace after a backslash opens
nothing, so it never adds to the depth; but where the levels are used up a
brace is looked for as it is written, and then one after a backslash counts.

* `DeepScan.deepBraces` — the braces that are reported, in one pass;
* `filter_isNestingTooDeep_reportsOf` — they are what reading reports;
* `exists_of_mem_deepBraces` — each lies inside exactly as many open braces as
  there are levels;
* `nestingTooDeep_ofText` — a text, its reports on the depth, and the braces that
  are open at each.
-/

namespace Spintax

/-! ## Braces as they are written -/

namespace Lexeme

/-- The position of the opening brace that is written in a lexeme, as itself or
one byte after its backslash. -/
def brace? (l : Lexeme) : Option Nat :=
  match l.token with
  | .opening => some l.pos
  | .pair c => if c = '{' then some (l.pos + 1) else none
  | _ => none

/-- A lexeme holds a brace at its own position, or one byte behind it if it is a pair. -/
theorem brace?_eq_some_iff {l : Lexeme} {pos : Nat} :
    l.brace? = some pos ↔
      (l.token = .opening ∧ pos = l.pos) ∨ (l.token = .pair '{' ∧ pos = l.pos + 1) := by
  obtain ⟨t, p⟩ := l
  cases t with
  | pair c => by_cases hc : c = '{' <;> simp [brace?, hc, eq_comm]
  | _ => simp [brace?, eq_comm]

/-- A lexeme holds no brace exactly if its token has none. -/
theorem brace?_eq_none_iff {l : Lexeme} : l.brace? = none ↔ l.token.hasBrace = false := by
  obtain ⟨t, p⟩ := l
  cases t with
  | pair c => by_cases hc : c = '{' <;> simp [brace?, Token.hasBrace, hc]
  | _ => simp [brace?, Token.hasBrace]

/-- A token has a brace exactly if its lexeme gives the position of one. -/
theorem hasBrace_iff {l : Lexeme} : l.token.hasBrace = true ↔ ∃ pos, l.brace? = some pos := by
  rw [← Option.isSome_iff_exists, Option.isSome_iff_ne_none, Ne, brace?_eq_none_iff]
  simp

/-- The first brace of a run is in its first lexeme, or else the first one behind it. -/
theorem firstBrace?_eq_or (l : Lexeme) (ls : List Lexeme) :
    firstBrace? (l :: ls) = l.brace?.or (firstBrace? ls) := by
  have hOne : firstBrace? [l] = l.brace? := by
    obtain ⟨t, p⟩ := l
    cases t with
    | pair c => by_cases hc : c = '{' <;> simp [firstBrace?, brace?, hc]
    | _ => simp [firstBrace?, brace?]
  rw [firstBrace?_cons, hOne]

end Lexeme

/-! ## One pass -/

/-- How many braces are open, and whether the run at the limit that one stands in
has been reported. -/
structure DeepScan where
  level : Nat
  reported : Bool

namespace DeepScan

/-- No brace is open, and nothing is reported. -/
def start : DeepScan := ⟨0, false⟩

/-- One more token, of a text in which choices nest at most `limit` deep. -/
def step (limit : Nat) (st : DeepScan) : Token → DeepScan
  | .opening => ⟨st.level + 1, limit ≤ st.level⟩
  -- below the limit a run is not kept as text, and so there is none to report
  | .closing => ⟨st.level - 1, st.reported && limit ≤ st.level - 1⟩
  -- a bar of a choice that is read begins another run
  | .bar => ⟨st.level, st.reported && (limit < st.level || st.level = 0)⟩
  | .pair c => if c = '{' then ⟨st.level, limit ≤ st.level⟩ else st
  | .plain _ | .backslash => st

/-- Several lexemes. -/
def run (limit : Nat) (st : DeepScan) (ls : List Lexeme) : DeepScan :=
  ls.foldl (fun st l => st.step limit l.token) st

/-- The positions of the braces that are reported: the first one of each run that
lies at the limit. -/
def deepBraces (limit : Nat) : DeepScan → List Lexeme → List Nat
  | _, [] => []
  | st, l :: ls =>
    (if limit ≤ st.level ∧ st.reported = false then l.brace?.toList else []) ++
      deepBraces limit (st.step limit l.token) ls

variable {limit m n : Nat} {st : DeepScan} {l : Lexeme} {ls : List Lexeme}

/-- The scan goes through one run and then on through the next. -/
theorem deepBraces_append (limit : Nat) (st : DeepScan) (xs ys : List Lexeme) :
    deepBraces limit st (xs ++ ys) =
      deepBraces limit st xs ++ deepBraces limit (st.run limit xs) ys := by
  induction xs generalizing st with
  | nil => rfl
  | cons x xs ih => rw [List.cons_append, deepBraces, ih, deepBraces, List.append_assoc]; rfl

/-- The scan counts open braces as `openAfter` does. -/
theorem level_step (limit : Nat) (st : DeepScan) (t : Token) :
    (st.step limit t).level = t.openAfter st.level := by
  cases t with
  | pair c => by_cases hc : c = '{' <;> simp [step, Token.openAfter, hc]
  | _ => rfl

/-- Over several lexemes, too, the scan counts open braces as `openAfter` does. -/
theorem level_run (limit : Nat) (st : DeepScan) (ls : List Lexeme) :
    (st.run limit ls).level = Token.openAfterAll st.level (ls.map Lexeme.token) := by
  induction ls generalizing st with
  | nil => rfl
  | cons l ls ih => rw [run, List.foldl_cons, ← run, ih, level_step]; rfl

/-- One lexeme is reported if it has a brace at the limit and its run has none yet. -/
theorem deepBraces_cons (limit : Nat) (st : DeepScan) (l : Lexeme) (ls : List Lexeme) :
    deepBraces limit st (l :: ls) =
      (if limit ≤ st.level ∧ st.reported = false then l.brace?.toList else []) ++
        deepBraces limit (st.step limit l.token) ls := rfl

/-- A lexeme without a brace that leaves the scan as it is. -/
theorem deepBraces_cons_of_idle (hBrace : l.brace? = none) (hStep : st.step limit l.token = st)
    (ls : List Lexeme) : deepBraces limit st (l :: ls) = deepBraces limit st ls := by
  rw [deepBraces, hBrace, hStep]
  simp

/-! ### Without levels -/

/-- Where the whole text is one run, its first brace is reported. -/
theorem deepBraces_zero (st : DeepScan) (ls : List Lexeme) :
    deepBraces 0 st ls = if st.reported then [] else (Lexeme.firstBrace? ls).toList := by
  induction ls generalizing st with
  | nil => simp [deepBraces, Lexeme.firstBrace?]
  | cons l ls ih =>
    -- at limit zero a run is never left, so what is reported stays reported
    have hKeep : (st.step 0 l.token).reported = (st.reported || l.token.hasBrace) := by
      cases ht : l.token with
      | bar => simp [step, Token.hasBrace]; omega
      | pair c => by_cases hc : c = '{' <;> simp [step, Token.hasBrace, hc]
      | _ => simp [step, Token.hasBrace]
    rw [deepBraces, ih, hKeep, Lexeme.firstBrace?_eq_or]
    cases hBrace : l.brace? with
    | none =>
      rw [Lexeme.brace?_eq_none_iff.mp hBrace]
      cases st.reported <;> simp
    | some pos =>
      rw [Lexeme.hasBrace_iff.mpr ⟨pos, hBrace⟩]
      cases st.reported <;> simp

/-! ### Options -/

/-- Inside an option the scan goes on as if the option stood alone, with one
level less. -/
theorem step_shift {t : Token} (h : t.levelAfter m = some n) (limit : Nat) (b : Bool) :
    ∃ b', step limit ⟨m, b⟩ t = ⟨n, b'⟩ ∧ step (limit + 1) ⟨m + 1, b⟩ t = ⟨n + 1, b'⟩ := by
  cases t with
  | opening =>
    obtain rfl := Option.some.inj h
    exact ⟨_, rfl, by simp [step]⟩
  | closing =>
    cases m with
    | zero => simp [Token.levelAfter] at h
    | succ m =>
      obtain rfl : m = n := by simpa [Token.levelAfter] using h
      exact ⟨_, rfl, by simp [step]⟩
  | bar =>
    cases m with
    | zero => simp [Token.levelAfter] at h
    | succ m =>
      obtain rfl : m + 1 = n := by simpa [Token.levelAfter] using h
      exact ⟨_, rfl, by simp [step]⟩
  | pair c =>
    obtain rfl := Option.some.inj h
    by_cases hc : c = '{'
    · exact ⟨_, by rw [step, if_pos hc], by simp [step, hc]⟩
    · exact ⟨_, by rw [step, if_neg hc], by simp [step, hc]⟩
  | plain c =>
    obtain rfl := Option.some.inj h
    exact ⟨_, rfl, rfl⟩
  | backslash =>
    obtain rfl := Option.some.inj h
    exact ⟨_, rfl, rfl⟩

/-- Inside one more brace, with a limit that is higher by one, the same braces are
reported. -/
theorem deepBraces_shift (h : Lexeme.levelAfter m ls = some n) (limit : Nat) (b : Bool) :
    deepBraces (limit + 1) ⟨m + 1, b⟩ ls = deepBraces limit ⟨m, b⟩ ls := by
  induction ls generalizing m b with
  | nil => rfl
  | cons l ls ih =>
    rw [Lexeme.levelAfter_cons, Option.bind_eq_some_iff] at h
    obtain ⟨i, hi, hls⟩ := h
    obtain ⟨b', hStep, hShift⟩ := step_shift hi limit b
    rw [deepBraces, deepBraces, hStep, hShift, ih hls]
    simp only [Nat.add_le_add_iff_right]

/-- After an opening brace the options are scanned one by one, each as if it
stood alone with one level less, and then what follows the choice. -/
theorem deepBraces_body (limit : Nat) (ls : List Lexeme) :
    deepBraces (limit + 1) ⟨1, false⟩ ls =
      (Body.ofLexemes 0 ls).options.flatMap (deepBraces limit start) ++
        deepBraces (limit + 1) start (Body.ofLexemes 0 ls).rest := by
  -- after an option the braces opened inside are closed again
  have hLevel : ∀ {o : List Lexeme}, Lexeme.Closed o →
      (run (limit + 1) ⟨1, false⟩ o).level = 1 := by
    intro o ho
    rw [level_run]
    exact Lexeme.openAfterAll_of_levelAfter (Lexeme.levelAfter_add ho 1)
  induction ls using Body.cut_induction with
  | last o k hk =>
    have hOption := deepBraces_shift hk limit false
    simpa [Body.options, Body.rest, deepBraces, start] using hOption
  | close o l r ho hTok =>
    have hOption := deepBraces_shift ho limit false
    have hNone : l.brace? = none := by simp [Lexeme.brace?, hTok]
    have hClose : (run (limit + 1) ⟨1, false⟩ o).step (limit + 1) l.token = start := by
      rw [hTok, step, hLevel ho]
      simp [start]
    rw [deepBraces_append, deepBraces, hNone, hClose]
    simpa [Body.options, Body.rest, start] using hOption
  | next o l r ho hTok ih =>
    have hOption := deepBraces_shift ho limit false
    have hNone : l.brace? = none := by simp [Lexeme.brace?, hTok]
    have hBar : (run (limit + 1) ⟨1, false⟩ o).step (limit + 1) l.token = ⟨1, false⟩ := by
      rw [hTok, step, hLevel ho]
      simp
    rw [deepBraces_append, deepBraces, hNone, hBar, ih]
    simpa [Body.options, Body.rest, start] using hOption

/-! ### Trimming -/

/-- Trimming a lexeme takes no brace from it. -/
theorem deepBraces_withoutTrailingBlank (limit : Nat) (st : DeepScan) (l : Lexeme) :
    deepBraces limit st l.withoutTrailingBlank.toList = deepBraces limit st [l] := by
  obtain ⟨t, pos⟩ := l
  rcases t.withoutTrailingBlank_cases with hw | hw | ⟨c, rfl, hw⟩
  · -- only a plain blank is taken away, and there is no brace in it
    cases t with
    | plain c => simp [Lexeme.withoutTrailingBlank, hw, deepBraces, Lexeme.brace?]
    | pair c =>
      by_cases hc : Text.isBlank c = true <;> simp [Token.withoutTrailingBlank, hc] at hw
    | _ => simp [Token.withoutTrailingBlank] at hw
  · simp [Lexeme.withoutTrailingBlank, hw]
  · -- a pair loses a blank, which is no brace
    have hc : c ≠ '{' := by
      rintro rfl
      exact absurd hw (by decide)
    simp [Lexeme.withoutTrailingBlank, hw, deepBraces, Lexeme.brace?, hc]

/-- Trimming the end of a run does not change what is reported. -/
theorem deepBraces_trimEnd (limit : Nat) (st : DeepScan) (ls : List Lexeme) :
    deepBraces limit st (Lexeme.trimEnd ls) = deepBraces limit st ls := by
  induction ls generalizing st with
  | nil => rfl
  | cons l ls ih =>
    by_cases hnil : Lexeme.trimEnd ls = []
    · have hRest : deepBraces limit (st.step limit l.token) ls = [] := by
        rw [← ih, hnil, deepBraces]
      rw [Lexeme.trimEnd_cons_of_eq_nil hnil, deepBraces_withoutTrailingBlank, deepBraces,
        deepBraces_cons limit st l ls, hRest, deepBraces]
    · rw [Lexeme.trimEnd_cons_of_ne_nil hnil, deepBraces, ih, deepBraces]

/-- Trimming takes no brace away and opens or closes none. -/
theorem deepBraces_trim (limit : Nat) (st : DeepScan) (ls : List Lexeme) :
    deepBraces limit st (Lexeme.trim ls) = deepBraces limit st ls := by
  rw [Lexeme.trim, deepBraces_trimEnd]
  induction ls with
  | nil => rfl
  | cons l ls ih =>
    cases hl : l.isBlank with
    | true =>
      have hIdle : l.brace? = none ∧ st.step limit l.token = st := by
        obtain ⟨t, pos⟩ := l
        cases t <;> simp_all [Lexeme.isBlank, Token.isBlank, Lexeme.brace?, step]
      rw [List.dropWhile_cons_of_pos hl, ih, deepBraces_cons_of_idle hIdle.1 hIdle.2]
    | false => rw [List.dropWhile_cons_of_neg (by simp [hl])]

end DeepScan

/-! ## What reading reports -/

open DeepScan (deepBraces start)

/-- **The reports on the depth are the braces that the one pass finds**, in the
same order. -/
theorem filter_isNestingTooDeep_reportsOf (maxDepth depth : Nat) (ls : List Lexeme) :
    (reportsOf maxDepth depth ls).filter Diagnostic.isNestingTooDeep =
      (deepBraces depth start ls).map (.nestingTooDeep · maxDepth) := by
  induction depth generalizing ls with
  | zero =>
    rw [reportsOf, DeepScan.deepBraces_zero]
    cases Lexeme.firstBrace? ls <;> simp [start, Diagnostic.isNestingTooDeep]
  | succ depth ihDepth =>
    -- the induction on the depth settles the options, the one on the run what follows
    have hOptions : ∀ os : List (List Lexeme),
        (os.flatMap (optionReports (reportsOf maxDepth depth))).filter
            Diagnostic.isNestingTooDeep =
          (os.flatMap (deepBraces depth start)).map (.nestingTooDeep · maxDepth) := by
      intro os
      rw [List.filter_flatMap, List.map_flatMap]
      congr 1
      funext o
      rw [optionReports_reportsOf, ihDepth, DeepScan.deepBraces_trim]
    have hOpening : ∀ {l : Lexeme} (ls : List Lexeme), l.token = .opening →
        deepBraces (depth + 1) start (l :: ls) = deepBraces (depth + 1) ⟨1, false⟩ ls := by
      intro l ls hTok
      rw [deepBraces, hTok]
      simp [start, DeepScan.step]
    induction ls using Lexeme.run_induction with
    | nil => rw [reportsOf_nil, deepBraces]; rfl
    | literal l ls hTok ih =>
      have hNone : (Item.literalReport l).filter Diagnostic.isNestingTooDeep = [] := by
        unfold Item.literalReport
        split <;> simp [Diagnostic.isNestingTooDeep]
      have hLit : deepBraces (depth + 1) start (l :: ls) = deepBraces (depth + 1) start ls := by
        have hStart : start.step (depth + 1) l.token = start := by
          cases ht : l.token <;> simp_all [start, DeepScan.step]
        rw [deepBraces, hStart]
        simp [start]
      rw [reportsOf_literal hTok, List.filter_append, hNone, List.nil_append, ih, hLit]
    | stray l hTok =>
      rw [reportsOf_stray hTok, hOpening [] hTok]
      simp [deepBraces, Diagnostic.isNestingTooDeep]
    | closed l ls r hTok hr ih =>
      rw [reportsOf_closed hTok hr, List.filter_append, hOptions, ih, hOpening ls hTok,
        DeepScan.deepBraces_body, List.map_append, Body.rest, hr]
      rfl
    | unclosed l ls hTok hne hr =>
      rw [reportsOf_unclosed hTok hne hr, List.filter_cons_of_neg (by
        simp [Diagnostic.isNestingTooDeep]), hOptions, hOpening ls hTok,
        DeepScan.deepBraces_body, Body.rest, hr]
      simp [deepBraces]

namespace DeepScan

/-- Beyond the limit a run is reported: it was entered by a brace at the limit. -/
theorem reported_step {limit : Nat} {st : DeepScan} (h : limit < st.level → st.reported = true)
    (t : Token) : limit < (st.step limit t).level → (st.step limit t).reported = true := by
  intro hLt
  cases t with
  | opening => simpa [step, Nat.lt_succ_iff] using hLt
  | closing =>
    have hLevel : limit < st.level - 1 := hLt
    simp [step, h (by omega), Nat.le_of_lt hLevel]
  | bar =>
    have hLevel : limit < st.level := hLt
    simp [step, h hLevel, hLevel]
  | pair c =>
    by_cases hc : c = '{'
    · simp only [step, if_pos hc] at hLt ⊢
      simpa using Nat.le_of_lt hLt
    · simp only [step, if_neg hc] at hLt ⊢
      exact h hLt
  | plain c => exact h hLt
  | backslash => exact h hLt

/-- **A brace that is reported lies inside exactly as many open braces as there
are levels.** -/
theorem exists_of_mem_deepBraces {limit pos : Nat} {st : DeepScan} {ls : List Lexeme}
    (h : limit < st.level → st.reported = true) (hMem : pos ∈ deepBraces limit st ls) :
    ∃ before l after, ls = before ++ l :: after ∧ l.brace? = some pos ∧
      Token.openAfterAll st.level (before.map Lexeme.token) = limit := by
  induction ls generalizing st with
  | nil => simp [deepBraces] at hMem
  | cons l ls ih =>
    rw [deepBraces, List.mem_append] at hMem
    rcases hMem with hMem | hMem
    · split at hMem
      · next hHere =>
        refine ⟨[], l, ls, rfl, by simpa using hMem, ?_⟩
        -- were it deeper, its run would have been reported before
        have hNot : ¬ limit < st.level := fun hLt => by simp [h hLt] at hHere
        have hLimit : st.level = limit := by omega
        exact hLimit
      · simp at hMem
    · obtain ⟨before, l', after, rfl, hBrace, hLevel⟩ := ih (reported_step h l.token) hMem
      refine ⟨l :: before, l', after, rfl, hBrace, ?_⟩
      rwa [level_step] at hLevel

end DeepScan

/-- The tokens fit when every brace has fewer open ones in front of it than the
limit. -/
theorem Token.fits_iff {limit level : Nat} {ls : List Lexeme} :
    Token.Fits limit level (ls.map Lexeme.token) ↔
      ∀ before l after, ls = before ++ l :: after → l.token.hasBrace = true →
        Token.openAfterAll level (before.map Lexeme.token) < limit := by
  constructor
  · rintro h before l after rfl hBrace
    rw [List.map_append, Token.fits_append, List.map_cons, Token.fits_cons] at h
    exact h.2.1 hBrace
  · intro h
    induction ls generalizing level with
    | nil => trivial
    | cons l ls ih =>
      rw [List.map_cons, Token.fits_cons]
      refine ⟨h [] l ls rfl, ih fun before l' after hls hBrace => ?_⟩
      exact h (l :: before) l' after (by rw [hls]; rfl) hBrace

/-! ## Open braces in front of a position -/

namespace Matching

/-- The matching of braces counts the open ones as `openAfter` does. -/
theorem length_opened_step (b : Matching) (l : Lexeme) :
    (b.step l).opened.length = l.token.openAfter b.opened.length := by
  obtain ⟨opened, loose⟩ := b
  obtain ⟨t, pos⟩ := l
  cases t with
  | closing => cases opened <;> simp [step, Token.openAfter]
  | _ => simp [step, Token.openAfter]

/-- Over several lexemes the matching and `openAfterAll` agree on how many braces are
open. -/
theorem length_opened_foldl_step (ls : List Lexeme) (b : Matching) :
    (ls.foldl step b).opened.length =
      Token.openAfterAll b.opened.length (ls.map Lexeme.token) := by
  induction ls generalizing b with
  | nil => rfl
  | cons l ls ih => rw [List.foldl_cons, ih, length_opened_step]; rfl

end Matching

/-- A lexeme ends where the next one starts, or before. -/
theorem Lexeme.end_le_of_place {pos : Nat} {ts : List Token} {before after : List Lexeme}
    {l x : Lexeme} (h : place pos ts = before ++ l :: after) (hMem : x ∈ before) :
    x.pos + Text.byteLength x.spelling ≤ l.pos := by
  obtain ⟨front, back, rfl⟩ := List.append_of_mem hMem
  have hSplit : place pos ts = front ++ x :: (back ++ l :: after) := by simpa using h
  rw [pos_of_place h, pos_of_place hSplit, spellAll_append, spellAll_cons]
  simp only [Text.byteLength_append]
  omega

namespace Matching

/-- In front of a brace stand the braces of the lexemes before its own. -/
theorem enclosing_of_brace {s : List Char} {before after : List Lexeme} {l : Lexeme} {pos : Nat}
    (h : Lexeme.ofText s = before ++ l :: after) (hBrace : l.brace? = some pos) :
    enclosing (Lexeme.ofText s) pos = Token.openAfterAll 0 (before.map Lexeme.token) := by
  have hBefore : ∀ x ∈ before, x.pos < l.pos := by
    intro x hx
    have hEnd := Lexeme.end_le_of_place h hx
    have hSize := Text.byteLength_pos x.spelling_ne_nil
    omega
  have hAfter : ∀ x ∈ after, l.pos + Text.byteLength l.spelling ≤ x.pos := by
    intro x hx
    obtain ⟨front, back, rfl⟩ := List.append_of_mem hx
    have hSplit : Lexeme.ofText s = (before ++ l :: front) ++ x :: back := by simp [h]
    exact Lexeme.end_le_of_place hSplit (by simp)
  -- how many braces stand open depends on the tokens alone
  have hCount : ∀ ls : List Lexeme,
      (ofLexemes ls).opened.length = Token.openAfterAll 0 (ls.map Lexeme.token) := fun ls =>
    length_opened_foldl_step ls balanced
  rw [enclosing, h, hCount]
  rcases Lexeme.brace?_eq_some_iff.mp hBrace with ⟨hTok, rfl⟩ | ⟨hTok, rfl⟩
  · -- the brace is the lexeme, and only what stands before it counts
    rw [List.takeWhile_append_of_pos (by simpa using hBefore),
      List.takeWhile_cons_of_neg (by simp), List.append_nil]
  · -- its backslash counts as well, and opens nothing
    have hSize : Text.byteLength l.spelling = 2 := by rw [Lexeme.spelling, hTok]; rfl
    have hStop : after.takeWhile (fun x => decide (x.pos < l.pos + 1)) = [] := by
      cases after with
      | nil => rfl
      | cons x after =>
        have hx := hAfter x List.mem_cons_self
        exact List.takeWhile_cons_of_neg (by simp only [decide_eq_true_eq]; omega)
    rw [List.takeWhile_append_of_pos (by
        intro x hx
        have hLt := hBefore x hx
        simp only [decide_eq_true_eq]
        omega),
      List.takeWhile_cons_of_pos (by simp), hStop, List.map_append, Token.openAfterAll,
      List.foldl_append]
    simp [hTok, Token.openAfter, Token.openAfterAll]

end Matching

/-! ## Texts -/

/-- **The reports on the depth of a text.** Each stands at a brace, with a backslash
before it or not, that lies inside exactly as many open braces as there are levels,
and there is none just when every brace lies inside fewer. A brace that is text
because of its backslash opens nothing, but it is reported all the same: only where
all of those lie inside fewer braces is every report about a brace that would open
a choice. -/
theorem nestingTooDeep_ofText (maxDepth : Nat) (s : List Char) :
    let ls : List Lexeme := Lexeme.ofText (Text.normalize s)
    let ds := (Reading.ofText maxDepth s).diagnostics
    (∀ pos limit, .nestingTooDeep pos limit ∈ ds → limit = maxDepth ∧
        ∃ l ∈ ls, l.brace? = some pos ∧ Matching.enclosing ls pos = maxDepth) ∧
      ((∀ d ∈ ds, d.isNestingTooDeep = false) ↔
        ∀ l ∈ ls, ∀ pos, l.brace? = some pos → Matching.enclosing ls pos < maxDepth) ∧
      ((∀ l ∈ ls, l.token = .pair '{' → Matching.enclosing ls (l.pos + 1) < maxDepth) →
        (∀ pos limit, .nestingTooDeep pos limit ∈ ds →
            ∃ l ∈ ls, l.token = .opening ∧ pos = l.pos ∧ maxDepth ≤ Matching.enclosing ls pos) ∧
          ((∀ l ∈ ls, l.token = .opening → Matching.enclosing ls l.pos < maxDepth) →
            ∀ d ∈ ds, d.isNestingTooDeep = false)) := by
  intro ls ds
  have hEach : ∀ pos limit, .nestingTooDeep pos limit ∈ ds → limit = maxDepth ∧
      ∃ l ∈ ls, l.brace? = some pos ∧ Matching.enclosing ls pos = maxDepth := by
    intro pos limit hMem
    -- the reports on depth are what the scan finds, so the scan says where each stands
    have hDeep : Diagnostic.nestingTooDeep pos limit ∈
        (deepBraces maxDepth start ls).map (.nestingTooDeep · maxDepth) := by
      rw [← filter_isNestingTooDeep_reportsOf]
      exact List.mem_filter.mpr ⟨hMem, rfl⟩
    obtain ⟨p, hp, hEq⟩ := List.mem_map.mp hDeep
    obtain ⟨rfl, rfl⟩ := Diagnostic.nestingTooDeep.inj hEq
    obtain ⟨before, l, after, hls, hBrace, hLevel⟩ :=
      DeepScan.exists_of_mem_deepBraces (by simp [start]) hp
    exact ⟨rfl, l, by simp [hls], hBrace,
      (Matching.enclosing_of_brace hls hBrace).trans hLevel⟩
  have hNone : (∀ d ∈ ds, d.isNestingTooDeep = false) ↔
      ∀ l ∈ ls, ∀ pos, l.brace? = some pos → Matching.enclosing ls pos < maxDepth := by
    refine deep_iff_fits.trans (Token.fits_iff.trans ⟨fun h l hl pos hBrace => ?_,
      fun h before l after hls hBrace => ?_⟩)
    · obtain ⟨before, after, hls⟩ := List.append_of_mem hl
      rw [Matching.enclosing_of_brace hls hBrace]
      exact h before l after hls (Lexeme.hasBrace_iff.mpr ⟨pos, hBrace⟩)
    · obtain ⟨pos, hBrace⟩ := Lexeme.hasBrace_iff.mp hBrace
      have hMem : l ∈ Lexeme.ofText (Text.normalize s) := by simp [hls]
      rw [← Matching.enclosing_of_brace hls hBrace]
      exact h l hMem pos hBrace
  -- a brace opens a choice or belongs to a pair, and the pairs are not deep enough
  refine ⟨hEach, hNone, fun hPairs => ⟨fun pos limit hMem => ?_, fun hOpen => ?_⟩⟩
  · obtain ⟨-, l, hl, hBrace, hLevel⟩ := hEach pos limit hMem
    rcases Lexeme.brace?_eq_some_iff.mp hBrace with ⟨hTok, hPos⟩ | ⟨hTok, rfl⟩
    · exact ⟨l, hl, hTok, hPos, Nat.le_of_eq hLevel.symm⟩
    · exact absurd hLevel (Nat.ne_of_lt (hPairs l hl hTok))
  · refine hNone.mpr fun l hl pos hBrace => ?_
    rcases Lexeme.brace?_eq_some_iff.mp hBrace with ⟨hTok, rfl⟩ | ⟨hTok, rfl⟩
    · exact hOpen l hl hTok
    · exact hPairs l hl hTok

/-- One choice where one may be open, with a brace in it that is text. -/
example : (Reading.ofText 1 ['{', 'a', '\\', '{', 'b', '}']).diagnostics =
    [.nestingTooDeep 3 1] := by decide +kernel

end Spintax
