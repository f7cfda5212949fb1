import Spintax.Proofs.Runs

/-!
# Spintax — how deep braces stand

Choices nest up to a limit, and a run that lies deeper is kept as text, with a
report if there is a brace in it. Whether reading makes such a report depends
on the tokens alone: each brace that is written, with a backslash before it or
not, has to stand inside fewer open braces than the limit. Nothing of the way
in which options are cut, trimmed and read again is left in this condition.

* `Token.Fits` — the condition;
* `Token.fits_append`, `Lexeme.fits_shift` — tokens one after the other, and
  tokens inside further braces;
* `deep_iff_fits` — there is no report on the depth exactly when the tokens fit.
-/

namespace Spintax

/-! ## Tokens that fit -/

namespace Token

/-- Whether an opening brace is written in the token, as itself or in a pair. -/
def hasBrace : Token → Bool
  | .opening => true
  | .pair c => c = '{'
  | _ => false

/-- How many braces are open after a token; where none is open, a closing brace
closes nothing. -/
def openAfter (level : Nat) : Token → Nat
  | .opening => level + 1
  | .closing => level - 1
  | _ => level

/-- How many braces are open after several tokens. -/
def openAfterAll (level : Nat) (ts : List Token) : Nat :=
  ts.foldl openAfter level

/-- Every brace that is written stands inside fewer than `limit` open ones, if
`level` are open in front. -/
def Fits (limit : Nat) : Nat → List Token → Prop
  | _, [] => True
  | level, t :: ts => (t.hasBrace = true → level < limit) ∧ Fits limit (t.openAfter level) ts

theorem fits_cons {limit level : Nat} {t : Token} {ts : List Token} :
    Fits limit level (t :: ts) ↔
      (t.hasBrace = true → level < limit) ∧ Fits limit (t.openAfter level) ts :=
  Iff.rfl

/-- Tokens that follow others fit where those leave off. -/
theorem fits_append {limit level : Nat} {ts us : List Token} :
    Fits limit level (ts ++ us) ↔
      Fits limit level ts ∧ Fits limit (openAfterAll level ts) us := by
  induction ts generalizing level with
  | nil => simp [Fits, openAfterAll]
  | cons t ts ih =>
    rw [List.cons_append, fits_cons, fits_cons, ih, and_assoc]
    rfl

/-- A token without a brace in it fits and opens nothing. -/
theorem openAfter_of_isBlank {t : Token} (h : t.isBlank = true) (level : Nat) :
    t.hasBrace = false ∧ t.openAfter level = level := by
  cases t <;> simp_all [isBlank, hasBrace, openAfter]

/-- Outside of all braces only an opening one makes a difference. -/
theorem openAfter_zero {t : Token} (h : t ≠ .opening) : t.openAfter 0 = 0 := by
  cases t with
  | opening => exact absurd rfl h
  | _ => rfl

/-- Where the limit is used up, no brace may be written at all. -/
theorem fits_zero {level : Nat} {ts : List Token} :
    Fits 0 level ts ↔ ∀ t ∈ ts, t.hasBrace = false := by
  induction ts generalizing level with
  | nil => simp [Fits]
  | cons t ts ih =>
    rw [fits_cons, ih, List.forall_mem_cons]
    simp

/-! ## Tokens inside an option -/

/-- Inside an option both counts of open braces are the same. -/
theorem openAfter_of_levelAfter {m n : Nat} {t : Token} (h : t.levelAfter m = some n) :
    t.openAfter m = n := by
  cases t with
  | closing =>
    rw [levelAfter] at h
    split at h
    · exact absurd h (by simp)
    · exact Option.some.inj h
  | bar =>
    rw [levelAfter] at h
    split at h
    · exact absurd h (by simp)
    · exact Option.some.inj h
  | _ => exact Option.some.inj h

end Token

namespace Lexeme

open Token (Fits openAfterAll)

variable {m n : Nat} {ls : List Lexeme}

/-- Both counts agree on a run that stays inside its option. -/
theorem openAfterAll_of_levelAfter (h : levelAfter m ls = some n) :
    openAfterAll m (ls.map token) = n := by
  induction ls generalizing m with
  | nil => exact Option.some.inj h
  | cons l ls ih =>
    rw [levelAfter_cons, Option.bind_eq_some_iff] at h
    obtain ⟨i, hi, hls⟩ := h
    have hRest := ih hls
    rw [← Token.openAfter_of_levelAfter hi] at hRest
    exact hRest

/-- A run that stays inside its option fits inside further braces as it fits
alone, with as many levels more. -/
theorem fits_shift (h : levelAfter m ls = some n) (limit k : Nat) :
    Fits (limit + k) (m + k) (ls.map token) ↔ Fits limit m (ls.map token) := by
  induction ls generalizing m with
  | nil => exact Iff.rfl
  | cons l ls ih =>
    rw [levelAfter_cons, Option.bind_eq_some_iff] at h
    obtain ⟨i, hi, hls⟩ := h
    -- the token stays inside on either level, so both counts go the same way
    have hShift := Token.openAfter_of_levelAfter (Token.levelAfter_add hi k)
    rw [List.map_cons, Token.fits_cons, Token.fits_cons, hShift, ih hls,
      Token.openAfter_of_levelAfter hi, Nat.add_lt_add_iff_right]

/-! ## Trimmed runs -/

/-- Trimming a lexeme takes no brace from it. -/
theorem fits_withoutTrailingBlank (l : Lexeme) (limit level : Nat) :
    Fits limit level (l.withoutTrailingBlank.toList.map token) ↔
      (l.token.hasBrace = true → level < limit) := by
  obtain ⟨t, pos⟩ := l
  cases t with
  | plain c =>
    cases hc : Text.isBlank c <;>
      simp [withoutTrailingBlank, Token.withoutTrailingBlank, hc, Fits, Token.hasBrace]
  | pair c =>
    cases hc : Text.isBlank c with
    | true =>
      -- the brace of a pair is no blank, so it is not trimmed away
      have hBrace : c ≠ '{' := by
        rintro rfl
        exact absurd hc (by decide)
      simp [withoutTrailingBlank, Token.withoutTrailingBlank, hc, Fits, Token.hasBrace, hBrace]
    | false =>
      simp [withoutTrailingBlank, Token.withoutTrailingBlank, hc, Fits]
  | _ => simp [withoutTrailingBlank, Token.withoutTrailingBlank, Fits]

/-- Trimming the end of a run does not change whether it fits. -/
theorem fits_trimEnd (ls : List Lexeme) (limit level : Nat) :
    Fits limit level ((trimEnd ls).map token) ↔ Fits limit level (ls.map token) := by
  induction ls generalizing level with
  | nil => exact Iff.rfl
  | cons l ls ih =>
    rw [List.map_cons, Token.fits_cons, ← ih]
    by_cases hnil : trimEnd ls = []
    · rw [trimEnd_cons_of_eq_nil hnil, fits_withoutTrailingBlank, hnil]
      simp [Fits]
    · rw [trimEnd_cons_of_ne_nil hnil]
      exact Iff.rfl

/-- Leaving out the blanks at its start does not either. -/
theorem fits_dropWhile_isBlank (ls : List Lexeme) (limit level : Nat) :
    Fits limit level ((ls.dropWhile isBlank).map token) ↔ Fits limit level (ls.map token) := by
  induction ls with
  | nil => exact Iff.rfl
  | cons l ls ih =>
    cases hl : l.isBlank with
    | true =>
      obtain ⟨hBrace, hOpen⟩ := Token.openAfter_of_isBlank hl level
      rw [List.dropWhile_cons_of_pos hl, ih, List.map_cons, Token.fits_cons, hBrace, hOpen]
      simp
    | false => rw [List.dropWhile_cons_of_neg (by simp [hl])]

/-- Trimming takes no brace away. -/
theorem fits_trim (ls : List Lexeme) (limit level : Nat) :
    Fits limit level ((trim ls).map token) ↔ Fits limit level (ls.map token) := by
  rw [trim, fits_trimEnd, fits_dropWhile_isBlank]

/-! ## Choices -/

/-- What follows an opening brace fits if each option fits one level deeper, and
what comes after the choice fits as before. -/
theorem fits_body (ls : List Lexeme) (limit : Nat) :
    Fits (limit + 1) 1 (ls.map token) ↔
      (∀ o ∈ (Body.ofLexemes 0 ls).options, Fits limit 0 (o.map token)) ∧
        Fits (limit + 1) 0 ((Body.ofLexemes 0 ls).rest.map token) := by
  have hClosed : ∀ {o : List Lexeme}, Closed o → openAfterAll 1 (o.map token) = 1 := fun ho =>
    openAfterAll_of_levelAfter (levelAfter_add ho 1)
  induction ls using Body.cut_induction with
  | last o k hk =>
    have hShift := fits_shift hk limit 1
    rw [Nat.zero_add] at hShift
    simp [Body.options, Body.rest, hShift, Fits]
  | close o l r ho hTok =>
    have hShift := fits_shift ho limit 1
    rw [Nat.zero_add] at hShift
    -- the brace of the choice is the one that is closed
    rw [List.map_append, Token.fits_append, hShift, hClosed ho, List.map_cons, hTok,
      Token.fits_cons]
    simp [Body.options, Body.rest, Token.hasBrace, Token.openAfter]
  | next o l r ho hTok ih =>
    have hShift := fits_shift ho limit 1
    rw [Nat.zero_add] at hShift
    have hBar : Fits (limit + 1) 1 ((l :: r).map token) ↔ Fits (limit + 1) 1 (r.map token) := by
      rw [List.map_cons, hTok, Token.fits_cons]
      simp [Token.hasBrace, Token.openAfter]
    have hRest : Fits (limit + 1) 1 (r.map token) ↔ _ := ih
    rw [List.map_append, Token.fits_append, hShift, hClosed ho, hBar, hRest, ← and_assoc]
    have hOptions : (∀ x ∈ o :: (Body.ofLexemes 0 r).options, Fits limit 0 (x.map token)) ↔ _ :=
      List.forall_mem_cons
    exact and_congr_left' hOptions.symm

end Lexeme

/-! ## Reports on the depth -/

/-- A run has no first brace exactly if no token of it has one. -/
theorem firstBrace?_eq_none_iff {ls : List Lexeme} :
    Lexeme.firstBrace? ls = none ↔ ∀ t ∈ ls.map Lexeme.token, t.hasBrace = false := by
  induction ls with
  | nil => simp [Lexeme.firstBrace?]
  | cons l ls ih =>
    have hOne : Lexeme.firstBrace? [l] = none ↔ l.token.hasBrace = false := by
      obtain ⟨t, pos⟩ := l
      cases t with
      | pair c =>
        by_cases hc : c = '{' <;> simp [Lexeme.firstBrace?, Token.hasBrace, hc]
      | _ => simp [Lexeme.firstBrace?, Token.hasBrace]
    rw [Lexeme.firstBrace?_cons, Option.or_eq_none_iff, hOne, ih, List.map_cons,
      List.forall_mem_cons]

/-- **There is no report on the depth exactly when the tokens fit.** -/
theorem deep_iff_fits {maxDepth depth : Nat} {ls : List Lexeme} :
    (∀ d ∈ reportsOf maxDepth depth ls, d.isNestingTooDeep = false) ↔
      Token.Fits depth 0 (ls.map Lexeme.token) := by
  induction depth generalizing ls with
  | zero =>
    rw [Token.fits_zero, ← firstBrace?_eq_none_iff, reportsOf]
    cases Lexeme.firstBrace? ls <;> simp [Diagnostic.isNestingTooDeep]
  | succ depth ihDepth =>
    -- the induction on the depth settles the options, the one on the run what follows
    have hOptions : ∀ os : List (List Lexeme),
        (∀ d ∈ os.flatMap (optionReports (reportsOf maxDepth depth)),
          d.isNestingTooDeep = false) ↔ ∀ o ∈ os, Token.Fits depth 0 (o.map Lexeme.token) := by
      intro os
      simp only [List.mem_flatMap, optionReports_reportsOf, forall_exists_index, and_imp]
      rw [forall_comm]
      refine forall_congr' fun o => ?_
      rw [forall_comm]
      refine forall_congr' fun ho => ?_
      rw [ihDepth, Lexeme.fits_trim]
    have hOpening : ∀ {l : Lexeme} {ls : List Lexeme}, l.token = .opening →
        (Token.Fits (depth + 1) 0 ((l :: ls).map Lexeme.token) ↔
          Token.Fits (depth + 1) 1 (ls.map Lexeme.token)) := by
      intro l ls hTok
      rw [List.map_cons, hTok, Token.fits_cons]
      simp [Token.openAfter]
    induction ls using Lexeme.run_induction with
    | nil => simp [reportsOf_nil, Token.Fits]
    | literal l ls hTok ih =>
      have hNone : ∀ d ∈ Item.literalReport l, d.isNestingTooDeep = false := by
        unfold Item.literalReport
        split <;> simp [Diagnostic.isNestingTooDeep]
      have hOpen : l.token.openAfter 0 = 0 := by
        cases ht : l.token <;> simp_all [Token.openAfter]
      have hRest : (∀ d ∈ reportsOf maxDepth (depth + 1) ls, d.isNestingTooDeep = false) ↔ _ := ih
      rw [reportsOf_literal hTok, List.forall_mem_append, hRest, List.map_cons, Token.fits_cons,
        hOpen]
      exact and_congr_left' ⟨fun _ _ => Nat.succ_pos depth, fun _ => hNone⟩
    | stray l hTok =>
      rw [reportsOf_stray hTok, hOpening hTok]
      simp [Diagnostic.isNestingTooDeep, Token.Fits]
    | closed l ls r hTok hr ih =>
      have hRest : (∀ d ∈ reportsOf maxDepth (depth + 1) r, d.isNestingTooDeep = false) ↔ _ := ih
      rw [reportsOf_closed hTok hr, List.forall_mem_append, hOptions, hRest, hOpening hTok,
        Lexeme.fits_body, Body.rest, hr]
      rfl
    | unclosed l ls hTok hne hr =>
      rw [reportsOf_unclosed hTok hne hr, List.forall_mem_cons, hOptions, hOpening hTok,
        Lexeme.fits_body, Body.rest, hr]
      simp [Diagnostic.isNestingTooDeep, Token.Fits]

end Spintax
