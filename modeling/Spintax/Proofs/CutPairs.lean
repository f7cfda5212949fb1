import Spintax.Proofs.Canonical
import Spintax.Proofs.FirstPass

/-!
# Spintax — pairs that trimming cuts

Options are trimmed after they have been cut off, and a blank at the end of an
option may be the second half of a pair. Trimming then takes the blank and
leaves the backslash alone; where the tree is written, that backslash stands in
front of a bar or a closing brace and takes it along the next time. Whether this
happens can be seen on the text, in one pass over its tokens, without cutting or
trimming anything: inside some brace there is a pair with a blank, and nothing
but blanks behind it up to the next bar or closing brace.

Where no brace lacks its partner this is all that can make a tree illegible.

* `Text.cutsPair` — whether a pair of the text is cut;
* `Lexeme.cuts_append_iff`, `Lexeme.cuts_choice_iff` — the pass over an option, and over a
  choice, meets no cut pair exactly when trimming makes no cut;
* `isLegible_ofText_iff` — a text without a report has a legible tree exactly
  when no pair of it is cut.
-/

namespace Spintax

/-! ## Cut pairs -/

namespace Token

/-- A token that ends an option, unless it stands inside further braces. -/
def endsOption : Token → Bool
  | .closing => true
  | .bar => true
  | _ => false

/-- Whether there is nothing but blanks in front of the next token that ends an
option. -/
def isAtEnd (ts : List Token) : Bool :=
  (ts.dropWhile isBlank).head?.any endsOption

/-- Whether trimming the option cuts the token, if these come after it. -/
def isCut (ts : List Token) : Token → Bool
  | .pair c => Text.isBlank c && isAtEnd ts
  | _ => false

/-- Whether trimming cuts a pair among the tokens, if `level` braces are open in
front. -/
def cuts : Nat → List Token → Bool
  | _, [] => false
  | level, t :: ts => (decide (0 < level) && t.isCut ts) || cuts (t.openAfter level) ts

end Token

/-- Whether trimming the options of a text cuts a pair of it. -/
def Text.cutsPair (s : List Char) : Bool :=
  Token.cuts 0 (Token.ofText (normalize s))

namespace Token

/-- Nothing is cut if the first token is not, where it stands in a choice, and nothing
behind it is. -/
theorem cuts_cons_eq_false {level : Nat} {t : Token} {ts : List Token} :
    cuts level (t :: ts) = false ↔
      (0 < level → t.isCut ts = false) ∧ cuts (t.openAfter level) ts = false := by
  rw [cuts, Bool.or_eq_false_iff, Bool.and_eq_false_imp, decide_eq_true_eq]

theorem isCut_nil (t : Token) : t.isCut [] = false := by
  cases t <;> simp [isCut, isAtEnd]

/-- A blank in front makes no difference. -/
theorem isAtEnd_cons_of_isBlank {t : Token} (h : t.isBlank = true) (ts : List Token) :
    isAtEnd (t :: ts) = isAtEnd ts := by
  rw [isAtEnd, List.dropWhile_cons_of_pos h]
  rfl

theorem isAtEnd_cons_of_not_isBlank {t : Token} (h : t.isBlank = false) (ts : List Token) :
    isAtEnd (t :: ts) = t.endsOption := by
  rw [isAtEnd, List.dropWhile_cons_of_neg (by simp [h])]
  rfl

/-- What ends an option is neither a blank nor a pair. -/
theorem isAtEnd_cons_of_endsOption {t : Token} (h : t.endsOption = true) (ts : List Token) :
    isAtEnd (t :: ts) = true := by
  have hBlank : t.isBlank = false := by
    cases t with
    | plain c => exact absurd h (by simp [endsOption])
    | _ => rfl
  rw [isAtEnd_cons_of_not_isBlank hBlank, h]

/-- What ends an option is not cut. -/
theorem isCut_of_endsOption {t : Token} (h : t.endsOption = true) (ts : List Token) :
    t.isCut ts = false := by
  cases t with
  | pair c => exact absurd h (by simp [endsOption])
  | _ => rfl

/-- A blank is not cut, as it is trimmed away as a whole. -/
theorem isCut_of_isBlank {t : Token} (h : t.isBlank = true) (ts : List Token) :
    t.isCut ts = false := by
  cases t with
  | pair c => exact absurd h (by simp [isBlank])
  | _ => rfl

theorem cuts_cons_of_isBlank {t : Token} (h : t.isBlank = true) (level : Nat) (ts : List Token) :
    cuts level (t :: ts) = cuts level ts := by
  rw [cuts, isCut_of_isBlank h, Bool.and_false, Bool.false_or, (openAfter_of_isBlank h level).2]

/-- Trimming leaves nothing of a token exactly if it is a blank. -/
theorem withoutTrailingBlank_eq_none_iff {t : Token} :
    t.withoutTrailingBlank = none ↔ t.isBlank = true := by
  cases t with
  | plain c => cases hc : Text.isBlank c <;> simp [withoutTrailingBlank, isBlank, hc]
  | pair c => cases hc : Text.isBlank c <;> simp [withoutTrailingBlank, isBlank, hc]
  | _ => simp [withoutTrailingBlank, isBlank]

end Token

/-- In front of what follows a closed choice stands its closing brace. -/
theorem Body.exists_closing_of_rest {ls r : List Lexeme} (h : (ofLexemes 0 ls).rest? = some r) :
    ∃ xs m, ls = xs ++ m :: r ∧ m.token = .closing := by
  induction ls using cut_induction with
  | last o k hk => exact absurd h (by simp)
  | close o l r' ho hTok =>
    obtain rfl := Option.some.inj h
    exact ⟨o, l, rfl, hTok⟩
  | next o l r' ho hTok ih =>
    obtain ⟨xs, m, hEq, hClosing⟩ := ih h
    exact ⟨o ++ l :: xs, m, by rw [hEq, List.append_assoc, List.cons_append], hClosing⟩

namespace Lexeme

open Token (cuts isAtEnd)

variable {m k : Nat} {l : Lexeme} {ls o r : List Lexeme} {sep : Token}

/-! ## The end of an option -/

/-- A run that stays inside its option does not begin with an end of it. -/
theorem isAtEnd_of_levelAfter (h : levelAfter 0 ls = some k) :
    isAtEnd (ls.map token) = false := by
  induction ls with
  | nil => rfl
  | cons l ls ih =>
    rw [levelAfter_cons, Option.bind_eq_some_iff] at h
    obtain ⟨i, hi, hls⟩ := h
    cases hBlank : l.token.isBlank with
    | true =>
      have hLevel := levelAfter_of_not_isStructural (not_isStructural_of_isBlank hBlank) 0
      obtain rfl := Option.some.inj (hLevel.symm.trans hi)
      rw [List.map_cons, Token.isAtEnd_cons_of_isBlank hBlank]
      exact ih hls
    | false =>
      rw [List.map_cons, Token.isAtEnd_cons_of_not_isBlank hBlank]
      -- a bar or a closing brace would leave the option
      cases ht : l.token <;> simp_all [Token.endsOption, Token.levelAfter]

/-- A lexeme of which trimming leaves nothing is a blank. -/
theorem trimEnd_singleton_eq_nil (h : l.withoutTrailingBlank.toList = []) :
    l.token.isBlank = true := by
  rw [Option.toList_eq_nil_iff, withoutTrailingBlank, Option.map_eq_none_iff] at h
  exact Token.withoutTrailingBlank_eq_none_iff.mp h

/-- A run that is trimmed away altogether is followed by what follows it. -/
theorem isAtEnd_of_trimEnd_eq_nil (h : trimEnd o = []) (us : List Token) :
    isAtEnd (o.map token ++ us) = isAtEnd us := by
  induction o with
  | nil => rfl
  | cons l o ih =>
    by_cases hnil : trimEnd o = []
    · rw [trimEnd_cons_of_eq_nil hnil] at h
      rw [List.map_cons, List.cons_append,
        Token.isAtEnd_cons_of_isBlank (trimEnd_singleton_eq_nil h), ih hnil]
    · rw [trimEnd_cons_of_ne_nil hnil] at h
      exact absurd h (List.cons_ne_nil _ _)

/-- What is left of a run by trimming begins as the run does. -/
theorem isAtEnd_trimEnd (h : trimEnd o ≠ []) (us : List Token) :
    isAtEnd (o.map token ++ us) = isAtEnd ((trimEnd o).map token) := by
  induction o with
  | nil => exact absurd rfl h
  | cons l o ih =>
    rw [List.map_cons, List.cons_append]
    by_cases hnil : trimEnd o = []
    · -- the lexeme is all that is left, perhaps without its blank
      rw [trimEnd_cons_of_eq_nil hnil] at h ⊢
      obtain ⟨t, pos⟩ := l
      have hBlank : t.isBlank = false := by
        rw [Bool.eq_false_iff]
        intro hBlank
        rw [withoutTrailingBlank, Token.withoutTrailingBlank_eq_none_iff.mpr hBlank] at h
        exact h rfl
      rw [Token.isAtEnd_cons_of_not_isBlank hBlank]
      rcases t.withoutTrailingBlank_cases with hw | hw | ⟨c, rfl, hw⟩
      · rw [withoutTrailingBlank, hw] at h
        exact absurd rfl h
      · rw [withoutTrailingBlank, hw]
        exact (Token.isAtEnd_cons_of_not_isBlank hBlank []).symm
      · rw [withoutTrailingBlank, hw]
        rfl
    · rw [trimEnd_cons_of_ne_nil hnil, List.map_cons]
      cases hBlank : l.token.isBlank with
      | true =>
        rw [Token.isAtEnd_cons_of_isBlank hBlank, Token.isAtEnd_cons_of_isBlank hBlank, ih hnil]
      | false =>
        rw [Token.isAtEnd_cons_of_not_isBlank hBlank, Token.isAtEnd_cons_of_not_isBlank hBlank]

/-- The last lexeme that trimming leaves something of is cut if it is a pair that
stands at the end of its option. -/
theorem withoutTrailingBlank_uncut_iff (hLone : l.token ≠ .backslash) {ts : List Token}
    (hEnd : isAtEnd ts = true) (level : Nat) :
    l.token.isCut ts = false ↔
      .backslash ∉ l.withoutTrailingBlank.toList.map token ∧
        cuts level (l.withoutTrailingBlank.toList.map token) = false := by
  have hOne : ∀ t : Token, cuts level [t] = false := by
    intro t
    rw [cuts, Token.isCut_nil, Bool.and_false]
    rfl
  obtain ⟨t, pos⟩ := l
  cases t with
  | plain c =>
    cases hc : Text.isBlank c <;>
      simp [withoutTrailingBlank, Token.withoutTrailingBlank, Token.isCut, cuts, hc, hOne]
  | pair c =>
    cases hc : Text.isBlank c <;>
      simp [withoutTrailingBlank, Token.withoutTrailingBlank, Token.isCut, hc, hEnd, hOne]
  | backslash => exact absurd rfl hLone
  | _ => simp [withoutTrailingBlank, Token.withoutTrailingBlank, Token.isCut, hOne]

/-- A lexeme outside of all braces in its option is not cut if trimming leaves something
after it, for then the option goes on there. -/
theorem isCut_trimEnd_eq_false (h : levelAfter 0 (l :: o) = some 0) (hne : trimEnd o ≠ []) :
    l.token.isCut ((trimEnd o).map token) = false := by
  rw [levelAfter_cons, Option.bind_eq_some_iff] at h
  obtain ⟨i, hi, ho⟩ := h
  cases ht : l.token with
  | pair c =>
    rw [ht] at hi
    obtain rfl : 0 = i := Option.some.inj hi
    have hEnd := isAtEnd_trimEnd hne []
    rw [List.append_nil, isAtEnd_of_levelAfter ho] at hEnd
    rw [Token.isCut, ← hEnd, Bool.and_false]
  | _ => rfl

/-- Up to the end of an option the pass meets a cut pair exactly if it meets one in
the option as it is trimmed, or if trimming leaves a backslash alone. -/
theorem cuts_append_iff (h : levelAfter m o = some 0) (hLone : .backslash ∉ o.map token)
    (hSep : sep.endsOption = true) (us : List Token) :
    cuts (m + 1) (o.map token ++ sep :: us) = false ↔
      (.backslash ∉ (trimEnd o).map token ∧ cuts m ((trimEnd o).map token) = false) ∧
        cuts (sep.openAfter 1) us = false := by
  induction o generalizing m with
  | nil =>
    obtain rfl := Option.some.inj h
    rw [List.map_nil, List.nil_append, Token.cuts_cons_eq_false, Token.isCut_of_endsOption hSep]
    simp [trimEnd, cuts]
  | cons l o ih =>
    have hAfter := h
    rw [levelAfter_cons, Option.bind_eq_some_iff] at hAfter
    obtain ⟨i, hi, ho⟩ := hAfter
    rw [List.map_cons, List.mem_cons, not_or] at hLone
    have hOpen := Token.openAfter_of_levelAfter (Token.levelAfter_add hi 1)
    rw [List.map_cons, List.cons_append, Token.cuts_cons_eq_false, hOpen, ih ho hLone.2,
      forall_prop_of_true (Nat.succ_pos m), ← and_assoc]
    refine and_congr_left' ?_
    -- is this lexeme the last that trimming leaves?
    by_cases hnil : trimEnd o = []
    · have hEnd : isAtEnd (o.map token ++ sep :: us) = true := by
        rw [isAtEnd_of_trimEnd_eq_nil hnil, Token.isAtEnd_cons_of_endsOption hSep]
      rw [withoutTrailingBlank_uncut_iff (Ne.symm hLone.1) hEnd m, trimEnd_cons_of_eq_nil hnil,
        hnil]
      simp [cuts]
    · have hCut : l.token.isCut (o.map token ++ sep :: us) =
          l.token.isCut ((trimEnd o).map token) := by
        cases l.token <;> simp only [Token.isCut]
        rw [isAtEnd_trimEnd hnil]
      -- at the level of the option nothing is cut, for the option goes on behind the lexeme
      have hInside : (0 < m → l.token.isCut ((trimEnd o).map token) = false) ↔
          l.token.isCut ((trimEnd o).map token) = false := by
        refine ⟨fun hLevel => ?_, fun hNone _ => hNone⟩
        rcases Nat.eq_zero_or_pos m with rfl | hm
        · exact isCut_trimEnd_eq_false h hnil
        · exact hLevel hm
      rw [trimEnd_cons_of_ne_nil hnil, List.map_cons, Token.cuts_cons_eq_false, hInside, hCut,
        Token.openAfter_of_levelAfter hi, List.mem_cons, not_or, and_iff_right hLone.1]
      exact and_left_comm

/-- Nor does it matter to the pass what is trimmed in front. -/
theorem cuts_trim_iff (level : Nat) (ls : List Lexeme) :
    (.backslash ∉ (trimEnd ls).map token ∧ cuts level ((trimEnd ls).map token) = false) ↔
      .backslash ∉ (trim ls).map token ∧ cuts level ((trim ls).map token) = false := by
  rw [trim_eq_dropWhile_trimEnd]
  generalize trimEnd ls = ms
  induction ms with
  | nil => exact Iff.rfl
  | cons l ms ih =>
    cases hl : l.isBlank with
    | true =>
      have hTok : Token.backslash ≠ l.token := by
        intro hTok
        rw [isBlank, ← hTok] at hl
        exact absurd hl (by decide)
      rw [List.dropWhile_cons_of_pos hl, ← ih, List.map_cons, Token.cuts_cons_of_isBlank hl,
        List.mem_cons, not_or, and_iff_right hTok]
    | false => rw [List.dropWhile_cons_of_neg (by simp [hl])]

/-- **The pass over a choice** meets no cut pair exactly if its options are
trimmed without a cut, and if it meets none after the choice. -/
theorem cuts_body_iff (hr : (Body.ofLexemes 0 ls).rest? = some r)
    (hLone : .backslash ∉ (ls.map token).dropLast) :
    cuts 1 (ls.map token) = false ↔
      (∀ o ∈ (Body.ofLexemes 0 ls).options,
          .backslash ∉ (trim o).map token ∧ cuts 0 ((trim o).map token) = false) ∧
        cuts 0 (r.map token) = false := by
  -- an option has something behind it, so it holds no lone backslash
  have hOption : ∀ {o : List Lexeme} {l : Lexeme} {r : List Lexeme},
      .backslash ∉ ((o ++ l :: r).map token).dropLast → .backslash ∉ o.map token := by
    intro o l r hLone hMem
    rw [List.map_append, List.dropLast_append_of_ne_nil (by simp)] at hLone
    exact hLone (List.mem_append_left _ hMem)
  induction ls using Body.cut_induction with
  | last o k hk => exact absurd hr (by simp)
  | close o l r' ho hTok =>
    obtain rfl := Option.some.inj hr
    rw [List.map_append, List.map_cons, hTok, cuts_append_iff ho (hOption hLone) rfl,
      cuts_trim_iff, Body.options, List.forall_mem_singleton]
    rfl
  | next o l r' ho hTok ih =>
    have hSuffix : r' <:+ o ++ l :: r' := (List.suffix_cons l r').trans (List.suffix_append o _)
    have hRest := ih hr (backslash_not_mem_of_suffix hLone hSuffix)
    rw [List.map_append, List.map_cons, hTok, cuts_append_iff ho (hOption hLone) rfl,
      cuts_trim_iff, Body.options, List.forall_mem_cons]
    exact (and_congr_right' hRest).trans and_assoc.symm

/-- The pass over a closed choice and what follows it. -/
theorem cuts_choice_iff (hTok : l.token = .opening) (hr : (Body.ofLexemes 0 ls).rest? = some r)
    (hLone : .backslash ∉ ((l :: ls).map token).dropLast) :
    cuts 0 ((l :: ls).map token) = false ↔
      (∀ o ∈ (Body.ofLexemes 0 ls).options,
          .backslash ∉ (trim o).map token ∧ cuts 0 ((trim o).map token) = false) ∧
        cuts 0 (r.map token) = false := by
  rw [List.map_cons, hTok]
  exact cuts_body_iff hr (backslash_not_mem_of_suffix hLone (List.suffix_cons l ls))

/-! ## Lone backslashes -/

/-- A run that begins with a closed choice ends with a lone backslash exactly if what
follows the choice does. -/
theorem backslash_not_mem_iff_of_rest (hr : (Body.ofLexemes 0 ls).rest? = some r)
    (hLone : .backslash ∉ ((l :: ls).map token).dropLast) :
    .backslash ∉ (l :: ls).map token ↔ .backslash ∉ r.map token := by
  have hSuffix := Body.suffix_cons_of_rest hr l
  refine not_congr ⟨fun hMem => ?_, fun hMem => (hSuffix.map _).subset hMem⟩
  obtain ⟨xs, m, rfl, hClosing⟩ := Body.exists_closing_of_rest hr
  have hSplit : (l :: (xs ++ m :: r)).map token =
      (l :: xs).map token ++ .closing :: r.map token := by
    rw [← List.cons_append, List.map_append, @List.map_cons _ _ token m, hClosing]
  rw [hSplit, List.dropLast_append_of_ne_nil (List.cons_ne_nil _ _), List.mem_append,
    not_or] at hLone
  rw [hSplit, List.mem_append, List.mem_cons] at hMem
  exact (hMem.resolve_left hLone.1).resolve_left (by simp)

/-- Trimming leaves a backslash alone at the end only. -/
theorem backslash_not_mem_dropLast_trim (h : .backslash ∉ o.map token) :
    .backslash ∉ ((trim o).map token).dropLast := by
  have hEnd := backslash_not_mem_dropLast_trimEnd fun hMem => h (List.dropLast_subset _ hMem)
  rw [trim_eq_dropWhile_trimEnd]
  exact backslash_not_mem_of_suffix hEnd (List.dropWhile_suffix _)

/-- A closed option of a run holds no lone backslash, for it has something behind it. -/
theorem backslash_not_mem_option (hr : (Body.ofLexemes 0 ls).rest? = some r)
    (hLone : .backslash ∉ ((l :: ls).map token).dropLast)
    (ho : o ∈ (Body.ofLexemes 0 ls).options) : .backslash ∉ o.map token := by
  intro hBackslash
  obtain ⟨m, hm, hTok⟩ := List.mem_map.mp hBackslash
  rw [← List.map_dropLast, List.dropLast_cons_of_ne_nil (Body.ne_nil_of_rest hr)] at hLone
  exact hLone (List.mem_map.mpr
    ⟨m, List.mem_cons_of_mem l (Body.mem_dropLast_of_mem_options hr ho hm), hTok⟩)

/-- What trimming leaves of a closed option is closed, comes apart as it did, and has a
lone backslash at its end at most. -/
theorem trim_option (hr : (Body.ofLexemes 0 ls).rest? = some r) (hRecut : Recut (l :: ls))
    (hLone : .backslash ∉ ((l :: ls).map token).dropLast)
    (ho : o ∈ (Body.ofLexemes 0 ls).options) :
    Closed (trim o) ∧ Recut (trim o) ∧ .backslash ∉ ((trim o).map token).dropLast := by
  have hMem : ∀ m ∈ o, m ∈ l :: ls := fun m hm =>
    List.mem_cons_of_mem l ((Body.infix_of_mem_options ho).subset hm)
  exact ⟨(Body.closed_of_mem_options hr o ho).trim, (hRecut.of_subset hMem).trim,
    backslash_not_mem_dropLast_trim (backslash_not_mem_option hr hLone ho)⟩

end Lexeme

/-! ## Legible runs -/

/-- Blanks alone are legible. -/
theorem Text.isLegible_of_allBlank {s : List Char} (h : allBlank s = true) :
    isLegible s = true := by
  induction s with
  | nil => rfl
  | cons c s ih =>
    rw [allBlank, List.all_cons, Bool.and_eq_true] at h
    have hc : c ≠ '\\' := by
      rintro rfl
      exact absurd h.1 (by decide)
    have hTok : (Token.ofChar c).isLiteral = true := by
      have hBlank := (Token.isBlank_ofChar c).trans h.1
      cases ht : Token.ofChar c <;> simp_all [Token.isBlank, Token.isLiteral]
    rw [isLegible, Token.ofText_cons_of_ne hc, List.all_cons, hTok]
    exact ih h.2

/-- An option is legible exactly when the sequence is that it was made of: the
texts that are left out hold blanks only. -/
theorem isLegible_wrapOption_iff {ns : List Node} (inOption : Bool) :
    Node.isLegible inOption (Node.wrapOption ns) = true ↔ Node.isLegibleAll true ns = true := by
  refine ⟨fun h => ?_, fun h => isLegible_wrapOption h inOption⟩
  have hFilter : ∀ ms, Node.isLegibleAll true (ms.filter fun n => !n.isBlankText) = true →
      Node.isLegibleAll true ms = true := by
    intro ms hms
    refine Node.isLegibleAll_iff.mpr fun n hn => ?_
    cases hBlank : n.isBlankText with
    | false => exact Node.isLegibleAll_iff.mp hms n (List.mem_filter.mpr ⟨hn, by simp [hBlank]⟩)
    | true =>
      cases n with
      | text s => exact Text.isLegible_of_allBlank (by simpa [Node.isBlankText] using hBlank)
      | _ => exact absurd hBlank (by simp [Node.isBlankText])
  unfold Node.wrapOption at h
  split at h
  · next s ns =>
    rw [Node.isLegible, Bool.and_eq_true] at h
    rw [Node.isLegibleAll, hFilter ns h.2, Bool.and_true]
    exact h.1
  · rw [Node.isLegible, Bool.and_eq_true] at h
    exact hFilter _ h.2

/-- One more lexeme in front of a sequence, if it is not the backslash of a pair
that begins there. -/
theorem isLegibleAll_consText_iff {inOption : Bool} {l : Lexeme} (hRecut : Lexeme.Recut [l])
    {ns : List Node} (hLone : ns ≠ [] → l.token ≠ .backslash) :
    Node.isLegibleAll inOption (Node.consText l.spelling ns) = true ↔
      (inOption = true → l.token.isLiteral = true) ∧ Node.isLegibleAll inOption ns = true := by
  refine ⟨fun h => ?_, fun h => isLegibleAll_consText hRecut h.1 h.2⟩
  have hText : ∀ t, (t ≠ [] → l.token ≠ .backslash) →
      Node.isLegible inOption (.text (l.spelling ++ t)) = true →
        (inOption = true → l.token.isLiteral = true) ∧
          Node.isLegible inOption (.text t) = true := by
    intro t hLone ht
    cases inOption with
    | false => exact ⟨by simp, rfl⟩
    | true =>
      have ht : Text.isLegible (l.spelling ++ t) = true := ht
      by_cases hTok : l.token = .backslash
      · -- a lone backslash stands at the very end, and no literal may end so
        obtain rfl : t = [] := Classical.byContradiction fun hne => hLone hne hTok
        rw [Lexeme.spelling, hTok] at ht
        exact absurd ht (by decide)
      · rw [Text.isLegible, hRecut l (List.mem_singleton_self l) hTok, List.all_cons,
          Bool.and_eq_true] at ht
        exact ⟨fun _ => ht.1, ht.2⟩
  -- the lexeme is a text of its own, or the beginning of the one that comes next
  rcases Node.consText_cases l.spelling_ne_nil ns with ⟨-, hEq⟩ | ⟨t, ns', rfl, hEq⟩
  · rw [hEq, Node.isLegibleAll, Bool.and_eq_true] at h
    obtain ⟨hFirst, hRest⟩ := h
    rw [← List.append_nil l.spelling] at hFirst
    exact ⟨(hText [] (by simp) hFirst).1, hRest⟩
  · rw [hEq, Node.isLegibleAll, Bool.and_eq_true] at h
    obtain ⟨hFirst, hRest⟩ := h
    obtain ⟨hLiteral, ht⟩ := hText t (fun _ => hLone (List.cons_ne_nil _ _)) hFirst
    rw [Node.isLegibleAll, ht, hRest]
    exact ⟨hLiteral, rfl⟩

/-- A lone backslash has nothing behind it, neither lexemes nor nodes. -/
theorem ne_backslash_of_nodesOf {depth : Nat} {l : Lexeme} {ls : List Lexeme}
    (hLone : .backslash ∉ ((l :: ls).map Lexeme.token).dropLast) :
    nodesOf depth ls ≠ [] → l.token ≠ .backslash := by
  intro hne hBackslash
  have hMap : ls.map Lexeme.token ≠ [] := mt List.map_eq_nil_iff.mp (mt nodesOf_eq_nil.mpr hne)
  rw [List.map_cons, List.dropLast_cons_of_ne_nil hMap, hBackslash] at hLone
  exact hLone (List.mem_cons_self ..)

/-- Where there is no report, nothing is nested too deep. -/
theorem not_isNestingTooDeep_of_eq_nil {ds : List Diagnostic} (h : ds = []) :
    ∀ d ∈ ds, d.isNestingTooDeep = false := by
  rw [h]
  exact List.forall_mem_nil _

/-- Where a choice is read without a report, there is room for one. -/
theorem exists_depth_of_reportsOf {maxDepth depth : Nat} {l : Lexeme} {ls : List Lexeme}
    (hTok : l.token = .opening) (h : reportsOf maxDepth depth (l :: ls) = []) :
    ∃ d, depth = d + 1 :=
  exists_depth_of_deep hTok (not_isNestingTooDeep_of_eq_nil h)

/-- If nothing is reported of a run, nothing is of what comes after a literal at its
start. -/
theorem reportsOf_eq_nil_of_literal {maxDepth depth : Nat} {l : Lexeme} {ls : List Lexeme}
    (hTok : l.token ≠ .opening) (h : reportsOf maxDepth depth (l :: ls) = []) :
    reportsOf maxDepth depth ls = [] := by
  cases depth with
  | zero =>
    -- without a brace in the run there is none in a part of it
    rw [reportsOf, List.map_eq_nil_iff, Option.toList_eq_nil_iff] at h ⊢
    rw [Lexeme.firstBrace?_cons, Option.or_eq_none_iff] at h
    exact h.2
  | succ depth =>
    rw [reportsOf_literal hTok, List.append_eq_nil_iff] at h
    exact h.2

namespace Lexeme

variable {l : Lexeme} {ls : List Lexeme}

/-- Outside of all braces nothing is cut, so the pass goes on behind a literal. -/
theorem cuts_literal (hTok : l.token ≠ .opening) :
    Token.cuts 0 ((l :: ls).map token) = Token.cuts 0 (ls.map token) := by
  rw [List.map_cons, Token.cuts, Token.openAfter_zero hTok]
  rfl

/-- In an option every literal may stand but a lone backslash. -/
theorem isLiteral_iff_of_closed (hTok : l.token ≠ .opening) (h : Closed (l :: ls)) :
    l.token.isLiteral = true ↔ .backslash ≠ l.token := by
  obtain ⟨hClosing, hBar, -⟩ := levelAfter_of_literal hTok h
  refine ⟨fun hLiteral hBackslash => ?_, fun hne =>
    Token.isLiteral_of_ne hTok hClosing hBar hne.symm⟩
  rw [← hBackslash] at hLiteral
  exact absurd hLiteral (by decide)

end Lexeme

/-- A closed choice is legible exactly when its options are trimmed without a cut, if
that is so of the sequences that are read in them. -/
theorem isLegible_closed_iff {maxDepth depth : Nat} {inOption : Bool} {l : Lexeme}
    {ls r : List Lexeme}
    (hOptions : ∀ o, Lexeme.Closed o → Lexeme.Recut o →
      .backslash ∉ (o.map Lexeme.token).dropLast → reportsOf maxDepth depth o = [] →
      (Node.isLegibleAll true (nodesOf depth o) = true ↔
        .backslash ∉ o.map Lexeme.token ∧ Token.cuts 0 (o.map Lexeme.token) = false))
    (hr : (Body.ofLexemes 0 ls).rest? = some r) (hRecut : Lexeme.Recut (l :: ls))
    (hLone : .backslash ∉ ((l :: ls).map Lexeme.token).dropLast)
    (hNone : ∀ o ∈ (Body.ofLexemes 0 ls).options,
      optionReports (reportsOf maxDepth depth) o = []) :
    Node.isLegible inOption
        (.choice ((Body.ofLexemes 0 ls).options.map (optionNode (nodesOf depth)))) = true ↔
      ∀ o ∈ (Body.ofLexemes 0 ls).options,
        .backslash ∉ (Lexeme.trim o).map Lexeme.token ∧
          Token.cuts 0 ((Lexeme.trim o).map Lexeme.token) = false := by
  rw [Node.isLegible, Node.isLegibleAll_iff, List.forall_mem_map]
  refine forall₂_congr fun o ho => ?_
  obtain ⟨hClosed, hTrim, hEnd⟩ := Lexeme.trim_option hr hRecut hLone ho
  have hReports := hNone o ho
  rw [optionReports_reportsOf] at hReports
  rw [optionNode_eq_wrap, isLegible_wrapOption_iff]
  exact hOptions _ hClosed hTrim hEnd hReports

/-- **The nodes of a run without a report are legible exactly when no pair of it is
cut**, and inside an option no backslash stands alone at its end. -/
theorem isLegibleAll_iff_cuts {maxDepth depth : Nat} {ls : List Lexeme} {inOption : Bool}
    (hRecut : Lexeme.Recut ls) (hLone : .backslash ∉ (ls.map Lexeme.token).dropLast)
    (hNone : reportsOf maxDepth depth ls = []) (hInside : inOption = true → Lexeme.Closed ls) :
    Node.isLegibleAll inOption (nodesOf depth ls) = true ↔
      (inOption = true → .backslash ∉ ls.map Lexeme.token) ∧
        Token.cuts 0 (ls.map Lexeme.token) = false := by
  -- options are read one level deeper, and a run is read lexeme by lexeme within its level
  induction depth using Nat.strongRecOn generalizing ls inOption with
  | _ depth ihDepth =>
    induction ls using Lexeme.run_induction with
    | nil =>
      rw [nodesOf_nil]
      simp [Node.isLegibleAll, Token.cuts]
    | literal l ls hTok ih =>
      have hRest : Node.isLegibleAll inOption (nodesOf depth ls) = true ↔ _ :=
        ih (hRecut.of_subset fun m hm => List.mem_cons_of_mem l hm)
          (backslash_not_mem_of_suffix hLone (List.suffix_cons l ls))
          (reportsOf_eq_nil_of_literal hTok hNone)
          fun hIn => (Lexeme.levelAfter_of_literal hTok (hInside hIn)).2.2
      rw [nodesOf_literal hTok, isLegibleAll_consText_iff (hRecut.of_subset (by simp))
        (ne_backslash_of_nodesOf hLone), hRest, Lexeme.cuts_literal hTok, ← and_assoc, ← imp_and]
      refine and_congr_left' (forall_congr' fun hIn => ?_)
      rw [Lexeme.isLiteral_iff_of_closed hTok (hInside hIn), List.map_cons, List.mem_cons, not_or]
    | stray l hTok =>
      obtain ⟨depth, rfl⟩ := exists_depth_of_reportsOf hTok hNone
      rw [reportsOf_stray hTok] at hNone
      exact absurd hNone (List.cons_ne_nil _ _)
    | closed l ls r hTok hr ih =>
      obtain ⟨depth, rfl⟩ := exists_depth_of_reportsOf hTok hNone
      have hSuffix := Body.suffix_cons_of_rest hr l
      rw [reportsOf_closed hTok hr, List.append_eq_nil_iff, List.flatMap_eq_nil_iff] at hNone
      have hRest : Node.isLegibleAll inOption (nodesOf (depth + 1) r) = true ↔ _ :=
        ih (hRecut.of_subset fun m hm => hSuffix.subset hm)
          (backslash_not_mem_of_suffix hLone hSuffix) hNone.2
          fun hIn => Lexeme.levelAfter_of_choice hTok hr (hInside hIn)
      -- an option is inside an option, whatever the choice is in
      have hOptions := fun o hClosed hRecut hLone hNone =>
        (@ihDepth depth (Nat.lt_succ_self depth) o true hRecut hLone hNone
          fun _ => hClosed).trans (and_congr_left' (forall_prop_of_true rfl))
      rw [nodesOf_closed hTok hr, Node.isLegibleAll, Bool.and_eq_true, hRest,
        isLegible_closed_iff hOptions hr hRecut hLone hNone.1,
        Lexeme.cuts_choice_iff hTok hr hLone, Lexeme.backslash_not_mem_iff_of_rest hr hLone]
      exact and_left_comm
    | unclosed l ls hTok hne hr =>
      obtain ⟨depth, rfl⟩ := exists_depth_of_reportsOf hTok hNone
      rw [reportsOf_unclosed hTok hne hr] at hNone
      exact absurd hNone (List.cons_ne_nil _ _)

/-- **A text without a report has a legible tree exactly when no pair of it is
cut.** -/
theorem isLegible_ofText_iff {maxDepth : Nat} {s : List Char}
    (hNone : (Reading.ofText maxDepth s).diagnostics = []) :
    (Reading.ofText maxDepth s).root.isLegible false = true ↔ Text.cutsPair s = false := by
  have hTokens : (Lexeme.ofText (Text.normalize s)).map Lexeme.token =
      Token.ofText (Text.normalize s) := Lexeme.map_token_place 0 _
  have h := @isLegibleAll_iff_cuts maxDepth maxDepth _ false (Lexeme.recut_ofText _)
    (backslash_not_mem_ofText (Text.normalize s)) hNone (by simp)
  rw [hTokens] at h
  exact h.trans (and_iff_right (by simp))

end Spintax
