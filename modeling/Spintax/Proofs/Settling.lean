import Spintax.Proofs.FirstPass
import Spintax.Proofs.Meaning

/-!
# Spintax — writing back settles

A text is read and written back, and what comes back is read and written back
again. One pass may leave out blanks, add closing braces at the end, and so
change which backslashes take a character along the next time; no single pass
is plainly the last one. But a pass that changes anything makes one of three
counts smaller, the earlier ones staying as they are: the blanks that are left,
the lone backslash at the end, and the braces that are open at the end.

The braces that a reading adds are the point. However it cuts, trims and reads
the options, it adds no more of them than are open where the text ends
(`unterminated_le`), so they do not pile up.

* `unterminated_le` — the braces that are added;
* `unsettled_rewritten` — the counts, put into one number, get smaller;
* `rewritten_settles` — after so many passes nothing changes any more.
-/

namespace Spintax

/-! ## Open braces -/

namespace Token

theorem openAfterAll_append (level : Nat) (ts us : List Token) :
    openAfterAll level (ts ++ us) = openAfterAll (openAfterAll level ts) us :=
  List.foldl_append

/-- Each of several closing braces closes one, as long as any is open. -/
theorem openAfterAll_replicate_closing (level n : Nat) :
    openAfterAll level (List.replicate n .closing) = level - n := by
  induction n generalizing level with
  | zero => rfl
  | succ n ih =>
    have hRest : openAfterAll (level - 1) (List.replicate n .closing) = level - 1 - n := ih _
    rw [List.replicate_succ]
    show openAfterAll (level - 1) (List.replicate n .closing) = level - (n + 1)
    omega

/-- Only written braces open anything. -/
theorem openAfterAll_ofText_le (level : Nat) (s : List Char) :
    openAfterAll level (ofText s) ≤ level + s.count '{' := by
  induction s using ofText_induction generalizing level with
  | nil => exact Nat.le_refl _
  | lone => exact Nat.le_add_right _ _
  | pair c s ih =>
    have hRest : openAfterAll level (ofText s) ≤ level + s.count '{' := ih level
    have hCount : s.count '{' ≤ ('\\' :: c :: s).count '{' :=
      ((List.sublist_cons_self c s).trans (List.sublist_cons_self '\\' _)).count_le _
    rw [ofText_pair]
    exact hRest.trans (Nat.add_le_add_left hCount level)
  | char c s hc ih =>
    rw [ofText_cons_of_ne hc, List.count_cons]
    show openAfterAll ((ofChar c).openAfter level) (ofText s) ≤ _
    have hRest := ih ((ofChar c).openAfter level)
    -- only a brace that opens raises the level
    have hOne : (ofChar c).openAfter level ≤ level + if c == '{' then 1 else 0 := by
      by_cases hBrace : c = '{'
      · rw [hBrace]
        exact Nat.le_refl _
      · have hTok : ofChar c ≠ .opening := by
          unfold ofChar
          rw [if_neg hBrace]
          split
          · simp
          split <;> simp
        have hLe : (ofChar c).openAfter level ≤ level := by
          cases ht : ofChar c <;> simp_all [openAfter]
        omega
    omega

/-- A lone backslash is the last character of its text. -/
theorem exists_append_of_backslash_mem {s : List Char} (h : .backslash ∈ ofText s) :
    ∃ t, s = t ++ ['\\'] ∧ .backslash ∉ ofText t := by
  induction s using ofText_induction with
  | nil => exact absurd h (by simp [ofText])
  | lone => exact ⟨[], rfl, by simp [ofText]⟩
  | pair c s ih =>
    rw [ofText_pair, List.mem_cons] at h
    obtain ⟨t, rfl, ht⟩ := ih (h.resolve_left (by simp))
    exact ⟨'\\' :: c :: t, rfl, by simpa [ofText_pair] using ht⟩
  | char c s hc ih =>
    rw [ofText_cons_of_ne hc, List.mem_cons] at h
    obtain ⟨t, rfl, ht⟩ := ih (h.resolve_left (ofChar_ne_backslash c).symm)
    refine ⟨c :: t, rfl, ?_⟩
    rw [ofText_cons_of_ne hc, List.mem_cons, not_or]
    exact ⟨(ofChar_ne_backslash c).symm, ht⟩

end Token

namespace Lexeme

open Token (openAfterAll)

/-- Only braces count. -/
theorem openAfterAll_filter_isStructural (level : Nat) (ls : List Lexeme) :
    openAfterAll level ((ls.filter isStructural).map token) =
      openAfterAll level (ls.map token) := by
  induction ls generalizing level with
  | nil => rfl
  | cons l ls ih =>
    cases hl : l.isStructural with
    | true =>
      rw [List.filter_cons_of_pos hl]
      exact ih _
    | false =>
      have hOpen := Token.openAfter_of_levelAfter (levelAfter_of_not_isStructural hl level)
      rw [List.filter_cons_of_neg (by simp [hl]), ih]
      show openAfterAll level (ls.map token) = openAfterAll (l.token.openAfter level) (ls.map token)
      rw [hOpen]

/-- Trimming a run does not change how many braces it leaves open. -/
theorem openAfterAll_trim (level : Nat) (ls : List Lexeme) :
    openAfterAll level ((trim ls).map token) = openAfterAll level (ls.map token) := by
  rw [← openAfterAll_filter_isStructural, filter_isStructural_trim,
    openAfterAll_filter_isStructural]

/-- If no option lacks more closing braces than are open at its own end, a
choice with what follows it does not either; the one that it may lack itself is
counted. -/
theorem sum_options_le {u : List Lexeme → Nat}
    (hOption : ∀ o, u o ≤ openAfterAll 0 (o.map token)) (ls : List Lexeme) :
    ((Body.ofLexemes 0 ls).options.map u).sum +
        (if (Body.ofLexemes 0 ls).rest?.isSome then 0 else 1) +
          openAfterAll 0 ((Body.ofLexemes 0 ls).rest.map token) ≤
      openAfterAll 1 (ls.map token) := by
  -- a closed option opens nothing, and the brace in front of it stays open
  have hOne : ∀ {o : List Lexeme} {k : Nat}, levelAfter 0 o = some k →
      u o ≤ k ∧ openAfterAll 1 (o.map token) = k + 1 := by
    intro o k hk
    have hLe := hOption o
    rw [openAfterAll_of_levelAfter hk] at hLe
    exact ⟨hLe, openAfterAll_of_levelAfter (levelAfter_add hk 1)⟩
  induction ls using Body.cut_induction with
  | last o k hk =>
    obtain ⟨hLe, hOpen⟩ := hOne hk
    rw [hOpen]
    simpa [Body.options, Body.rest, Token.openAfterAll] using hLe
  | close o l r ho hTok =>
    obtain ⟨hLe, hOpen⟩ := hOne ho
    rw [List.map_append, Token.openAfterAll_append, hOpen, List.map_cons, hTok]
    show _ ≤ openAfterAll 0 (r.map token)
    simp [Body.options, Body.rest, Nat.le_zero.mp hLe]
  | next o l r ho hTok ih =>
    obtain ⟨hLe, hOpen⟩ := hOne ho
    rw [List.map_append, Token.openAfterAll_append, hOpen, List.map_cons, hTok, Body.options,
      List.map_cons, List.sum_cons, Nat.le_zero.mp hLe, Nat.zero_add]
    exact ih

end Lexeme

/-! ## Braces that are added -/

/-- **Reading adds no more closing braces than there are open ones at the end.** -/
theorem unterminated_le (maxDepth depth : Nat) (ls : List Lexeme) :
    unterminated (reportsOf maxDepth depth ls) ≤
      Token.openAfterAll 0 (ls.map Lexeme.token) := by
  induction depth generalizing ls with
  | zero =>
    rw [unterminated_zero]
    exact Nat.zero_le _
  | succ depth ihDepth =>
    -- the induction on the depth settles the options, the one on the run what follows
    have hChoice := @Lexeme.sum_options_le
      (fun o => unterminated (optionReports (reportsOf maxDepth depth) o)) (fun o => by
        rw [optionReports_reportsOf, ← Lexeme.openAfterAll_trim]
        exact ihDepth _)
    have hSum : ∀ os : List (List Lexeme),
        unterminated (os.flatMap (optionReports (reportsOf maxDepth depth))) =
          (os.map fun o => unterminated (optionReports (reportsOf maxDepth depth) o)).sum := by
      intro os
      rw [unterminated, List.countP_flatMap]
      rfl
    induction ls using Lexeme.run_induction with
    | nil =>
      rw [reportsOf_nil]
      exact Nat.zero_le _
    | literal l ls hTok ih =>
      rw [unterminated_literal hTok]
      show _ ≤ Token.openAfterAll (l.token.openAfter 0) (ls.map Lexeme.token)
      rwa [Token.openAfter_zero hTok]
    | stray l hTok =>
      rw [reportsOf_stray hTok]
      exact Nat.zero_le _
    | closed l ls r hTok hr ih =>
      have hChoice := hChoice ls
      simp only [Body.rest, hr, Option.isSome_some, if_true, Nat.add_zero, Option.getD_some]
        at hChoice
      rw [reportsOf_closed hTok hr, unterminated_append, hSum, List.map_cons, hTok]
      exact (Nat.add_le_add_left ih _).trans hChoice
    | unclosed l ls hTok hne hr =>
      have hChoice := hChoice ls
      simp only [Body.rest, hr, Option.isSome_none, Bool.false_eq_true, if_false,
        Option.getD_none] at hChoice
      -- the choice is the whole rest of the run and lacks one brace itself
      have hCount : unterminated (reportsOf maxDepth (depth + 1) (l :: ls)) =
          ((Body.ofLexemes 0 ls).options.map fun o =>
            unterminated (optionReports (reportsOf maxDepth depth) o)).sum + 1 := by
        rw [reportsOf_unclosed hTok hne hr, ← hSum]
        exact List.countP_cons_of_pos rfl
      rw [hCount, List.map_cons, hTok]
      exact hChoice

/-! ## What gets smaller -/

namespace Text

/-- How many blanks a text has. -/
def blanks (s : List Char) : Nat :=
  s.countP isBlank

theorem blanks_le_of_thinned {s t : List Char} (h : Thinned s t) : blanks t ≤ blanks s :=
  h.sublist.countP_le

/-- A text that has lost no blank has lost nothing. -/
theorem Thinned.eq_of_blanks {s t : List Char} (h : Thinned s t) (hEq : blanks t = blanks s) :
    t = s := by
  induction h with
  | nil => rfl
  | keep c _ ih =>
    rw [blanks, blanks, List.countP_cons, List.countP_cons, Nat.add_right_cancel_iff] at hEq
    rw [ih hEq]
  | leave hBlank hThin _ =>
    -- what is left cannot make up for the blank that was left out
    have hLe := blanks_le_of_thinned hThin
    rw [blanks, blanks, List.countP_cons_of_pos hBlank] at hEq
    rw [blanks, blanks] at hLe
    omega

/-- A line break is blank, and no more than one blank comes of it. -/
theorem blanks_foldBreaks_le (s : List Char) : blanks (foldBreaks s) ≤ blanks s := by
  have hSpace : isBlank ' ' = true := by decide
  unfold blanks
  fun_induction foldBreaks s with
  | case1 rest ih =>
    rw [List.countP_cons_of_pos hSpace, List.countP_cons_of_pos (isBlank_of_break (.inl rfl)),
      List.countP_cons_of_pos (isBlank_of_break (.inr rfl))]
    omega
  | case2 c rest _ ih =>
    rw [List.countP_cons, List.countP_cons, isBlank_fold]
    omega
  | case3 => exact Nat.le_refl _

theorem blanks_normalize_le (s : List Char) : blanks (normalize s) ≤ blanks s :=
  (blanks_foldBreaks_le _).trans (blanks_le_of_thinned (thinned_trim s))

/-- A character that is no blank is as frequent in two texts that differ in
blanks only. -/
theorem count_eq_of_letters {s t : List Char} (h : letters s = letters t) {c : Char}
    (hc : isBlank c = false) : s.count c = t.count c := by
  have hFilter : ∀ u : List Char, (letters u).count c = u.count c := fun u =>
    List.count_filter (by simp [hc])
  rw [← hFilter, h, hFilter]

/-- What stands open where a text ends: its braces, and a lone backslash. -/
def dangling (s : List Char) : Nat :=
  Token.openAfterAll 0 (Token.ofText s) + if .backslash ∈ Token.ofText s then 1 else 0

/-- No more braces are left open than the text has, and one lone backslash at most. -/
theorem dangling_le (s : List Char) : dangling s ≤ s.count '{' + 1 := by
  have hOpen := Token.openAfterAll_ofText_le 0 s
  have hLone : (if .backslash ∈ Token.ofText s then 1 else 0) ≤ 1 := by
    split <;> omega
  rw [dangling]
  omega

/-- Closing braces at the end of a text close some of its braces, except that the
first one is taken along by a lone backslash. -/
theorem dangling_append_lt {s : List Char} {n : Nat} (hPos : 0 < n)
    (hLe : n ≤ Token.openAfterAll 0 (Token.ofText s)) :
    dangling (s ++ List.replicate n '}') < dangling s := by
  have hNone : ∀ k, Token.backslash ∉ List.replicate k Token.closing := by
    intro k hMem
    exact absurd (List.eq_of_mem_replicate hMem) (by simp)
  by_cases hLone : .backslash ∈ Token.ofText s
  · obtain ⟨t, rfl, ht⟩ := Token.exists_append_of_backslash_mem hLone
    obtain ⟨k, rfl⟩ := Nat.exists_eq_succ_of_ne_zero (Nat.ne_of_gt hPos)
    -- the backslash makes a pair with the first brace, and the others close
    have hTokens : Token.ofText (t ++ ['\\'] ++ List.replicate (k + 1) '}') =
        Token.ofText t ++ .pair '}' :: List.replicate k .closing := by
      rw [List.append_assoc, Token.ofText_append ht, List.replicate_succ]
      show Token.ofText t ++ .pair '}' :: Token.ofText (List.replicate k '}') = _
      rw [Token.ofText_replicate_closing]
    have hOpen : Token.openAfterAll 0 (Token.ofText (t ++ ['\\'])) =
        Token.openAfterAll 0 (Token.ofText t) := by
      rw [Token.ofText_append ht, Token.openAfterAll_append]
      rfl
    have hMem : Token.backslash ∉ Token.ofText (t ++ ['\\'] ++ List.replicate (k + 1) '}') := by
      rw [hTokens, List.mem_append, List.mem_cons, not_or, not_or]
      exact ⟨ht, by simp, hNone k⟩
    have hClosed : Token.openAfterAll 0
        (Token.ofText t ++ .pair '}' :: List.replicate k .closing) =
          Token.openAfterAll 0 (Token.ofText t) - k := by
      rw [Token.openAfterAll_append]
      exact Token.openAfterAll_replicate_closing _ k
    rw [dangling, dangling, if_neg hMem, if_pos hLone, hTokens, hClosed, hOpen]
    omega
  · have hTokens : Token.ofText (s ++ List.replicate n '}') =
        Token.ofText s ++ List.replicate n .closing := by
      rw [Token.ofText_append hLone, Token.ofText_replicate_closing]
    have hMem : Token.backslash ∉ Token.ofText (s ++ List.replicate n '}') := by
      rw [hTokens, List.mem_append, not_or]
      exact ⟨hLone, hNone n⟩
    rw [dangling, dangling, if_neg hMem, if_neg hLone, hTokens, Token.openAfterAll_append,
      Token.openAfterAll_replicate_closing]
    omega

/-- What is left for later passes to do. A blank counts more than all that may
stand open at the end. -/
def unsettled (s : List Char) : Nat :=
  blanks (normalize s) * (s.count '{' + 2) + dangling (normalize s)

/-- How much is left to do is bounded by the blanks and the braces of the text. -/
theorem unsettled_lt (s : List Char) : unsettled s < (blanks s + 1) * (s.count '{' + 2) := by
  have hBlanks := Nat.mul_le_mul_right (s.count '{' + 2) (blanks_normalize_le s)
  have hDangling := dangling_le (normalize s)
  rw [count_eq_of_letters (letters_normalize s) (by decide)] at hDangling
  rw [unsettled, Nat.add_one_mul]
  omega

end Text

/-! ## One pass -/

open Text (Thinned)

/-- A text and its normal form come back as the same text. -/
theorem rewritten_normalize (maxDepth : Nat) (s : List Char) :
    rewritten maxDepth (Text.normalize s) = rewritten maxDepth s := by
  rw [rewritten, Reading.ofText, Text.normalize_normalize]
  rfl

/-- A pass that leaves blanks out, or adds braces, leaves less to do; one that
does neither leaves nothing. -/
theorem unsettled_rewritten (maxDepth : Nat) (s : List Char) :
    rewritten maxDepth (rewritten maxDepth s) = rewritten maxDepth s ∨
      Text.unsettled (rewritten maxDepth s) < Text.unsettled s := by
  have hThin := thinned_rewritten maxDepth s
  have hNormal := normalize_rewritten maxDepth s
  have hLe : unterminated (Reading.ofText maxDepth s).diagnostics ≤
      Token.openAfterAll 0 (Token.ofText (Text.normalize s)) := by
    have h := unterminated_le maxDepth maxDepth (Lexeme.ofText (Text.normalize s))
    rw [Lexeme.ofText, Lexeme.map_token_place] at h
    exact h
  -- from here on only how many braces are added counts
  generalize unterminated (Reading.ofText maxDepth s).diagnostics = n at hThin hLe
  have hBlanks : Text.blanks (Text.normalize s ++ List.replicate n '}') =
      Text.blanks (Text.normalize s) := by
    have hNone : Text.blanks (List.replicate n '}') = 0 := by
      rw [Text.blanks, List.countP_eq_zero]
      intro c hc
      rw [List.eq_of_mem_replicate hc]
      decide
    rw [Text.blanks, List.countP_append]
    exact congrArg (_ + ·) hNone
  -- blanks may go, but the braces that open are kept
  have hCount : (rewritten maxDepth s).count '{' = s.count '{' := by
    have hLetters := Text.count_eq_of_letters (c := '{') hThin.filter_eq (by decide)
    rw [hLetters, List.count_append, List.count_replicate,
      Text.count_eq_of_letters (Text.letters_normalize s) (by decide)]
    rfl
  have hFewer := Text.blanks_le_of_thinned hThin
  rw [hBlanks] at hFewer
  rw [Text.unsettled, Text.unsettled, hNormal, hCount]
  rcases Nat.lt_or_eq_of_le hFewer with hLt | hEq
  · -- a blank is left out, and that makes up for whatever stands open now
    right
    have hDangling := Text.dangling_le (rewritten maxDepth s)
    have hMul := Nat.mul_le_mul_right (s.count '{' + 2) (Nat.succ_le_of_lt hLt)
    rw [Nat.succ_mul] at hMul
    rw [hCount] at hDangling
    omega
  · -- only braces are added
    have hText := hThin.eq_of_blanks (hEq.trans hBlanks.symm)
    rcases Nat.eq_zero_or_pos n with rfl | hPos
    · left
      rw [List.replicate_zero, List.append_nil] at hText
      have hSame := rewritten_normalize maxDepth s
      rwa [← hText] at hSame
    · right
      have hDangling := Text.dangling_append_lt hPos hLe
      rw [← hText] at hDangling
      rw [hEq]
      omega

/-! ## Many passes -/

/-- If each step makes the measure smaller or is the last that changes anything,
then some step is the last. -/
theorem exists_iterate_fixed {α : Type _} {f : α → α} {measure : α → Nat}
    (hStep : ∀ x, f (f x) = f x ∨ measure (f x) < measure x) (x : α) :
    ∃ n ≤ measure x + 1, f (f^[n] x) = f^[n] x := by
  induction hn : measure x using Nat.strongRecOn generalizing x with
  | _ k ih =>
    rcases hStep x with hFixed | hLt
    · exact ⟨1, by omega, hFixed⟩
    · obtain ⟨n, hLe, hFixed⟩ := ih (measure (f x)) (by omega) (f x) rfl
      exact ⟨n + 1, by omega, hFixed⟩

/-- **Writing back settles.** Whatever a text contains, after so many passes it
comes back unchanged, and from then on each pass gives the same text and reads
the same tree from it. The number of passes is bounded by the blanks and the
braces of the text. -/
theorem rewritten_settles (maxDepth : Nat) (s : List Char) :
    ∃ n ≤ (Text.blanks s + 1) * (s.count '{' + 2),
      rewritten maxDepth ((rewritten maxDepth)^[n] s) = (rewritten maxDepth)^[n] s ∧
        ∀ m, n ≤ m →
          (rewritten maxDepth)^[m] s = (rewritten maxDepth)^[n] s ∧
            (Reading.ofText maxDepth ((rewritten maxDepth)^[m] s)).root =
              (Reading.ofText maxDepth ((rewritten maxDepth)^[n] s)).root := by
  obtain ⟨n, hLe, hFixed⟩ := exists_iterate_fixed (unsettled_rewritten maxDepth) s
  have hBound := Text.unsettled_lt s
  refine ⟨n, by omega, hFixed, fun m hm => ?_⟩
  obtain ⟨k, rfl⟩ := Nat.exists_eq_add_of_le hm
  have hSame : (rewritten maxDepth)^[n + k] s = (rewritten maxDepth)^[n] s := by
    rw [Nat.add_comm, Function.iterate_add_apply]
    exact Function.iterate_fixed hFixed k
  exact ⟨hSame, by rw [hSame]⟩

end Spintax
