import Spintax.Proofs.Cutting

/-!
# Spintax — trimming a run

An option is trimmed before it is read, so its structure has been settled on a
run that was longer. Trimming takes away blanks and may take the blank out of
a final pair; neither is structure. Hence braces and bars stay as they are
(`filter_isStructural_trim`), what is closed stays closed, and a closed choice
is cut into the same options (`Body.ofLexemes_trimEnd`).
-/

namespace Spintax

/-- Trimming takes a token away, leaves it, or leaves the backslash of a pair. -/
theorem Token.withoutTrailingBlank_cases (t : Token) :
    t.withoutTrailingBlank = none ∨ t.withoutTrailingBlank = some t ∨
      ∃ c, t = .pair c ∧ t.withoutTrailingBlank = some .backslash := by
  cases t with
  | plain c => cases hc : Text.isBlank c <;> simp [withoutTrailingBlank, hc]
  | pair c => cases hc : Text.isBlank c <;> simp [withoutTrailingBlank, hc]
  | _ => simp [withoutTrailingBlank]

namespace Lexeme

/-- Braces and bars. -/
def isStructural (l : Lexeme) : Bool :=
  l.token = .opening ∨ l.token = .closing ∨ l.token = .bar

theorem isStructural_of_opening {l : Lexeme} (h : l.token = .opening) : l.isStructural = true := by
  simp [isStructural, h]

theorem not_isStructural_of_isBlank {l : Lexeme} (h : l.isBlank = true) :
    l.isStructural = false := by
  obtain ⟨t, pos⟩ := l
  cases t <;> simp_all [isBlank, Token.isBlank, isStructural]

/-- Only braces and bars are counted. -/
theorem levelAfter_of_not_isStructural {l : Lexeme} (h : l.isStructural = false) (level : Nat) :
    l.token.levelAfter level = some level := by
  obtain ⟨t, pos⟩ := l
  cases t <;> simp_all [Token.levelAfter, isStructural]

/-! ## The end of a run -/

/-- Before lexemes of which something is kept, a lexeme is kept as it is. -/
theorem trimEnd_cons_of_ne_nil {ls : List Lexeme} (h : trimEnd ls ≠ []) (l : Lexeme) :
    trimEnd (l :: ls) = l :: trimEnd ls := by
  rw [trimEnd]
  split
  · next hnil => exact absurd hnil h
  · rfl

/-- Before blanks alone it is the last one, and may be a pair that is cut. -/
theorem trimEnd_cons_of_eq_nil {ls : List Lexeme} (h : trimEnd ls = []) (l : Lexeme) :
    trimEnd (l :: ls) = l.withoutTrailingBlank.toList := by
  rw [trimEnd, h]

/-- Trimming stops at a brace or a bar. -/
theorem trimEnd_cons_of_isStructural {l : Lexeme} (h : l.isStructural = true) (ls : List Lexeme) :
    trimEnd (l :: ls) = l :: trimEnd ls := by
  by_cases hnil : trimEnd ls = []
  · rw [trimEnd_cons_of_eq_nil hnil, hnil]
    obtain ⟨t, pos⟩ := l
    cases t <;> simp_all [isStructural, withoutTrailingBlank, Token.withoutTrailingBlank]
  · exact trimEnd_cons_of_ne_nil hnil l

/-- Trimming does not get past what is kept. -/
theorem trimEnd_append_of_ne_nil {ys : List Lexeme} (h : trimEnd ys ≠ []) (xs : List Lexeme) :
    trimEnd (xs ++ ys) = xs ++ trimEnd ys := by
  induction xs with
  | nil => rfl
  | cons x xs ih =>
    have hne : trimEnd (xs ++ ys) ≠ [] := by
      rw [ih]
      exact List.append_ne_nil_of_right_ne_nil xs h
    rw [List.cons_append, trimEnd_cons_of_ne_nil hne, ih, List.cons_append]

theorem trimEnd_append_cons {l : Lexeme} (h : l.isStructural = true) (xs ls : List Lexeme) :
    trimEnd (xs ++ l :: ls) = xs ++ l :: trimEnd ls := by
  have hl := trimEnd_cons_of_isStructural h ls
  rw [trimEnd_append_of_ne_nil (by rw [hl]; exact List.cons_ne_nil _ _), hl]

/-- A run at whose end nothing is trimmed: neither is anything at the end of a
later part of it. -/
theorem trimEnd_of_append {xs ys : List Lexeme} (h : trimEnd (xs ++ ys) = xs ++ ys) :
    trimEnd ys = ys := by
  induction xs with
  | nil => exact h
  | cons x xs ih =>
    by_cases hnil : trimEnd (xs ++ ys) = []
    · -- then at most one lexeme is left, and it is `x`
      rw [List.cons_append, trimEnd_cons_of_eq_nil hnil] at h
      have hlen := congrArg List.length h
      have hshort : x.withoutTrailingBlank.toList.length ≤ 1 := by
        cases x.withoutTrailingBlank <;> simp
      rw [List.length_cons, List.length_append] at hlen
      rw [List.eq_nil_of_length_eq_zero (l := ys) (by omega)]
      rfl
    · rw [List.cons_append, trimEnd_cons_of_ne_nil hnil] at h
      exact ih (List.cons.inj h).2

/-- A run at the end of whose text nothing is trimmed. -/
theorem trimEnd_eq_self {ls : List Lexeme}
    (h : Text.trimEnd (spellAll ls) = spellAll ls) : trimEnd ls = ls := by
  rw [← spellAll_trimEnd] at h
  induction ls with
  | nil => rfl
  | cons l ls ih =>
    by_cases hnil : trimEnd ls = []
    · rw [trimEnd_cons_of_eq_nil hnil, spellAll_cons] at h
      rw [trimEnd_cons_of_eq_nil hnil]
      obtain ⟨t, pos⟩ := l
      -- had the lexeme lost a character, the texts would differ in length
      rcases t.withoutTrailingBlank_cases with hw | hw | ⟨c, rfl, hw⟩
      · rw [withoutTrailingBlank, hw] at h
        exact absurd (List.append_eq_nil_iff.mp h.symm).1 (spelling_ne_nil _)
      · rw [withoutTrailingBlank, hw] at h ⊢
        have hEmpty : spellAll ls = [] := by simpa [spellAll] using h.symm
        rw [spellAll_eq_nil.mp hEmpty]
        rfl
      · rw [withoutTrailingBlank, hw] at h
        simp [spellAll, spelling, Token.spelling] at h
    · rw [trimEnd_cons_of_ne_nil hnil] at h ⊢
      rw [spellAll_cons, spellAll_cons, List.append_cancel_left_eq] at h
      rw [ih h]

/-- It makes no difference at which end a run is trimmed first. -/
theorem trim_eq_dropWhile_trimEnd (ls : List Lexeme) :
    trim ls = (trimEnd ls).dropWhile isBlank := by
  rw [trim]
  induction ls with
  | nil => rfl
  | cons l ls ih =>
    cases hl : l.isBlank with
    | true =>
      rw [List.dropWhile_cons_of_pos hl, ih]
      -- with nothing left behind it, the blank goes from either end
      by_cases hnil : trimEnd ls = []
      · have hNone : l.withoutTrailingBlank = none := by
          obtain ⟨t, pos⟩ := l
          cases t <;> simp_all [isBlank, Token.isBlank, withoutTrailingBlank,
            Token.withoutTrailingBlank]
        rw [trimEnd_cons_of_eq_nil hnil, hnil, hNone]
        rfl
      · rw [trimEnd_cons_of_ne_nil hnil, List.dropWhile_cons_of_pos hl]
    | false =>
      rw [List.dropWhile_cons_of_neg (by simp [hl])]
      by_cases hnil : trimEnd ls = []
      · rw [trimEnd_cons_of_eq_nil hnil]
        obtain ⟨t, pos⟩ := l
        unfold withoutTrailingBlank
        -- what is left of a lexeme that is no blank is none either
        rcases t.withoutTrailingBlank_cases with hw | hw | ⟨c, -, hw⟩
        · rw [hw]
          rfl
        · rw [hw, Option.map_some, Option.toList, List.dropWhile_cons_of_neg (by simp [hl])]
        · rw [hw]
          rfl
      · rw [trimEnd_cons_of_ne_nil hnil, List.dropWhile_cons_of_neg (by simp [hl])]

/-! ## What trimming keeps -/

/-- Trimming a lexeme takes no brace and no bar from it. -/
theorem filter_isStructural_withoutTrailingBlank (l : Lexeme) :
    l.withoutTrailingBlank.toList.filter isStructural = [l].filter isStructural := by
  obtain ⟨t, pos⟩ := l
  cases t with
  | plain c =>
    cases hc : Text.isBlank c <;>
      simp [withoutTrailingBlank, Token.withoutTrailingBlank, hc, isStructural]
  | pair c =>
    cases hc : Text.isBlank c <;>
      simp [withoutTrailingBlank, Token.withoutTrailingBlank, hc, isStructural]
  | _ => simp [withoutTrailingBlank, Token.withoutTrailingBlank, isStructural]

/-- Trimming the end of a run takes no brace and no bar from it. -/
theorem filter_isStructural_trimEnd (ls : List Lexeme) :
    (trimEnd ls).filter isStructural = ls.filter isStructural := by
  induction ls with
  | nil => rfl
  | cons l ls ih =>
    by_cases hnil : trimEnd ls = []
    · -- all that was trimmed is blank, so no brace and no bar is lost with it
      rw [trimEnd_cons_of_eq_nil hnil, filter_isStructural_withoutTrailingBlank]
      have hls : ls.filter isStructural = [] := by rw [← ih, hnil, List.filter_nil]
      rw [List.filter_cons, List.filter_cons, hls, List.filter_nil]
    · rw [trimEnd_cons_of_ne_nil hnil, List.filter_cons, List.filter_cons, ih]

theorem filter_isStructural_dropWhile (ls : List Lexeme) :
    (ls.dropWhile isBlank).filter isStructural = ls.filter isStructural := by
  induction ls with
  | nil => rfl
  | cons l ls ih =>
    cases hl : l.isBlank with
    | true =>
      rw [List.dropWhile_cons_of_pos hl, ih,
        List.filter_cons_of_neg (by simp [not_isStructural_of_isBlank hl])]
    | false => rw [List.dropWhile_cons_of_neg (by simp [hl])]

/-- Trimming leaves every brace and every bar where it is. -/
theorem filter_isStructural_trim (ls : List Lexeme) :
    (trim ls).filter isStructural = ls.filter isStructural := by
  rw [trim, filter_isStructural_trimEnd, filter_isStructural_dropWhile]

/-- Only braces and bars count for the level. -/
theorem levelAfter_filter_isStructural (level : Nat) (ls : List Lexeme) :
    levelAfter level (ls.filter isStructural) = levelAfter level ls := by
  induction ls generalizing level with
  | nil => rfl
  | cons l ls ih =>
    rw [levelAfter_cons]
    cases hl : l.isStructural with
    | true =>
      rw [List.filter_cons_of_pos hl, levelAfter_cons]
      congr 1
      funext m
      exact ih m
    | false =>
      rw [List.filter_cons_of_neg (by simp [hl]), levelAfter_of_not_isStructural hl, ih,
        Option.bind_some]

/-- Trimming a run does not change what it opens and closes. -/
theorem levelAfter_trim (level : Nat) (ls : List Lexeme) :
    levelAfter level (trim ls) = levelAfter level ls := by
  rw [← levelAfter_filter_isStructural, filter_isStructural_trim, levelAfter_filter_isStructural]

theorem Closed.trim {ls : List Lexeme} (h : Closed ls) : Closed (trim ls) := by
  rw [Closed, levelAfter_trim]
  exact h

end Lexeme

/-! ## Cutting a trimmed run -/

/-- If the choice is closed, trimming the end of the run trims only what comes after the
choice. -/
theorem Body.ofLexemes_trimEnd {ls r : List Lexeme} (h : (ofLexemes 0 ls).rest? = some r) :
    ofLexemes 0 (Lexeme.trimEnd ls) =
      { ofLexemes 0 ls with rest? := some (Lexeme.trimEnd r) } := by
  induction ls using cut_induction with
  | last o k hk => exact absurd h (by simp)
  | close o l r' ho hTok =>
    obtain rfl := Option.some.inj h
    rw [Lexeme.trimEnd_append_cons (by simp [Lexeme.isStructural, hTok]),
      ofLexemes_append_closing ho hTok]
  | next o l r' ho hTok ih =>
    rw [Lexeme.trimEnd_append_cons (by simp [Lexeme.isStructural, hTok]),
      ofLexemes_append_bar ho hTok, ih h]
    rfl

end Spintax
