import Spintax.Proofs.CutPairs

/-!
# Spintax — texts without a report

A text in which reading finds nothing to repair should be written back as a text
of which the same is true, with the same tree. It is, exactly when no pair of it is
cut: then the tree is legible, so each part of it closes in writing what it opens,
and takes no more room for braces than its run did.

* `balanced_nodesOf` — the nodes of an option, as they are written;
* `settled_nodesOf` — those of the root, together;
* `clean_rewritten_iff` — what comes back is read without a report, and as the same
  tree, exactly when no pair is cut.
-/

namespace Spintax

open Token (Nested Settled)

/-! ## One lexeme -/

/-- A literal closes what it opens, for it opens nothing; if it has a brace in it, there
has to be room. -/
theorem Token.Nested.singleton {limit level : Nat} {t : Token} (hLiteral : t.isLiteral = true)
    (hBrace : t.hasBrace = true → level < limit) : Nested limit level [t] := by
  have hLevel : t.levelAfter level = some level := by
    cases t <;> simp_all [isLiteral, levelAfter]
  refine ⟨?_, hBrace, trivial⟩
  rw [List.foldlM_cons, hLevel]
  rfl

/-- A single lexeme of a run that is cut again as it stands is its own token. -/
theorem Lexeme.Recut.ofText_spelling {l : Lexeme} (hRecut : Lexeme.Recut [l])
    (hLone : l.token ≠ .backslash) : Token.ofText l.spelling = [l.token] := by
  have hCut := hRecut l (List.mem_singleton_self l) hLone []
  rwa [List.append_nil] at hCut

/-- A literal lexeme is balanced where there is room for the brace it may hold. -/
theorem balanced_spelling {l : Lexeme} {room : Nat} (hRecut : Lexeme.Recut [l])
    (hLiteral : l.token.isLiteral = true) (hBrace : l.token.hasBrace = true → 0 < room) :
    Text.Balanced room l.spelling := by
  have hLone : l.token ≠ .backslash := by
    intro hLone
    rw [hLone] at hLiteral
    exact absurd hLiteral (by decide)
  have hTokens := hRecut.ofText_spelling hLone
  constructor
  · intro limit hLimit
    rw [hTokens]
    exact .singleton hLiteral fun h => (hBrace h).trans_le hLimit
  · rw [hTokens, List.mem_singleton]
    exact hLone.symm

/-- A run that is read without a report leaves room for the brace of its first lexeme. -/
theorem hasBrace_of_reportsOf {maxDepth depth : Nat} {l : Lexeme} {ls : List Lexeme}
    (hNone : reportsOf maxDepth depth (l :: ls) = []) : l.token.hasBrace = true → 0 < depth :=
  (Token.fits_cons.mp (deep_iff_fits.mp (not_isNestingTooDeep_of_eq_nil hNone))).1

/-! ## Options -/

/-- A balanced text may come before balanced nodes. -/
theorem balanced_consText {room : Nat} {s : List Char} (hne : s ≠ []) {ns : List Node}
    (hs : Text.Balanced room s) (h : ∀ n ∈ ns, Text.Balanced room n.source) :
    ∀ n ∈ Node.consText s ns, Text.Balanced room n.source := by
  rcases Node.consText_cases hne ns with ⟨-, hEq⟩ | ⟨t, ns', rfl, hEq⟩
  · rw [hEq]
    exact List.forall_mem_cons.mpr ⟨hs, h⟩
  · rw [List.forall_mem_cons] at h
    rw [hEq]
    exact List.forall_mem_cons.mpr ⟨hs.append h.1, h.2⟩

/-- Making an option of balanced nodes keeps them balanced. -/
theorem balanced_wrapOption {room : Nat} {ns : List Node}
    (h : ∀ n ∈ ns, Text.Balanced room n.source) :
    Text.Balanced room (Node.wrapOption ns).source := by
  have hKept : ∀ ms : List Node, (∀ n ∈ ms, Text.Balanced room n.source) →
      Text.Balanced room ((ms.filter fun n => !n.isBlankText).flatMap Node.source) := by
    intro ms hms
    rw [List.flatMap_def]
    refine .flatten fun s hs => ?_
    obtain ⟨n, hn, rfl⟩ := List.mem_map.mp hs
    exact hms n (List.mem_filter.mp hn).1
  unfold Node.wrapOption
  split
  · next s ns =>
    rw [List.forall_mem_cons] at h
    rw [Node.source_option]
    exact h.1.append (hKept ns h.2)
  · rw [Node.source_option]
    exact hKept _ h

/-- A legible closed choice closes what it opens, with one level more than its options
need, if what is read in each of those does. -/
theorem balanced_closed {maxDepth depth : Nat} {inOption : Bool} {l : Lexeme}
    {ls r : List Lexeme}
    (hOptions : ∀ o, Lexeme.Closed o → Lexeme.Recut o →
      .backslash ∉ (o.map Lexeme.token).dropLast → reportsOf maxDepth depth o = [] →
      Node.isLegibleAll true (nodesOf depth o) = true →
      ∀ n ∈ nodesOf depth o, Text.Balanced depth n.source)
    (hr : (Body.ofLexemes 0 ls).rest? = some r) (hRecut : Lexeme.Recut (l :: ls))
    (hLone : .backslash ∉ ((l :: ls).map Lexeme.token).dropLast)
    (hNone : ∀ o ∈ (Body.ofLexemes 0 ls).options,
      optionReports (reportsOf maxDepth depth) o = [])
    (hLegible : Node.isLegible inOption
      (.choice ((Body.ofLexemes 0 ls).options.map (optionNode (nodesOf depth)))) = true) :
    Text.Balanced (depth + 1)
      (Node.choice ((Body.ofLexemes 0 ls).options.map (optionNode (nodesOf depth)))).source := by
  rw [Node.source_choice, List.map_map]
  refine .braces fun s hs => ?_
  obtain ⟨o, ho, rfl⟩ := List.mem_map.mp hs
  obtain ⟨hClosed, hTrim, hEnd⟩ := Lexeme.trim_option hr hRecut hLone ho
  have hOption := Node.isLegibleAll_iff.mp hLegible _ (List.mem_map_of_mem ho)
  have hReports := hNone o ho
  rw [optionNode_eq_wrap, isLegible_wrapOption_iff] at hOption
  rw [optionReports_reportsOf] at hReports
  rw [Function.comp_apply, optionNode_eq_wrap]
  exact balanced_wrapOption (hOptions _ hClosed hTrim hEnd hReports hOption)

/-- **The nodes of a legible closed run close what they open**, and they need no more
room than the run had. -/
theorem balanced_nodesOf {maxDepth depth : Nat} {ls : List Lexeme} (hClosed : Lexeme.Closed ls)
    (hRecut : Lexeme.Recut ls) (hLone : .backslash ∉ (ls.map Lexeme.token).dropLast)
    (hNone : reportsOf maxDepth depth ls = [])
    (hLegible : Node.isLegibleAll true (nodesOf depth ls) = true) :
    ∀ n ∈ nodesOf depth ls, Text.Balanced depth n.source := by
  -- options are read one level deeper, and a run is read lexeme by lexeme within its level
  induction depth using Nat.strongRecOn generalizing ls with
  | _ depth ihDepth =>
    induction ls, hClosed using Lexeme.closed_induction with
    | nil =>
      rw [nodesOf_nil]
      simp
    | literal l ls h hRest hTok hClosing hBar ih =>
      have hOne : Lexeme.Recut [l] := hRecut.of_subset (by simp)
      rw [nodesOf_literal hTok, isLegibleAll_consText_iff hOne
        (ne_backslash_of_nodesOf hLone)] at hLegible
      obtain ⟨hLiteral, hLegible⟩ := hLegible
      have hNodes := ih (hRecut.of_subset fun m hm => List.mem_cons_of_mem l hm)
        (backslash_not_mem_of_suffix hLone (List.suffix_cons l ls))
        (reportsOf_eq_nil_of_literal hTok hNone) hLegible
      rw [nodesOf_literal hTok]
      exact balanced_consText l.spelling_ne_nil
        (balanced_spelling hOne (hLiteral rfl) (hasBrace_of_reportsOf hNone)) hNodes
    | choice l ls r h hRest hTok hr ih =>
      obtain ⟨depth, rfl⟩ := exists_depth_of_reportsOf hTok hNone
      have hSuffix := Body.suffix_cons_of_rest hr l
      rw [reportsOf_closed hTok hr, List.append_eq_nil_iff, List.flatMap_eq_nil_iff] at hNone
      rw [nodesOf_closed hTok hr, Node.isLegibleAll, Bool.and_eq_true] at hLegible
      rw [nodesOf_closed hTok hr, List.forall_mem_cons]
      exact ⟨balanced_closed (fun o => ihDepth depth (Nat.lt_succ_self depth)) hr hRecut hLone
        hNone.1 hLegible.1, ih (hRecut.of_subset fun m hm => hSuffix.subset hm)
        (backslash_not_mem_of_suffix hLone hSuffix) hNone.2 hLegible.2⟩

/-! ## The root -/

/-- A token that is no brace leaves no brace over. -/
theorem Token.Settled.singleton {limit : Nat} {t : Token} (hOpening : t ≠ .opening)
    (hClosing : t ≠ .closing) (hLimit : 0 < limit) : Settled limit [t] := by
  by_cases hBackslash : t = .backslash
  · subst hBackslash
    exact ⟨⟨fun _ => hLimit, trivial⟩, rfl,
      fun pos b => Matching.step_of_not_isStructural (l := ⟨.backslash, pos⟩) rfl b⟩
  · refine .of_literal_or_bar (fun u hu => ?_) hLimit
    rw [List.mem_singleton.mp hu]
    by_cases hBar : t = .bar
    · exact .inr hBar
    · exact .inl (Token.isLiteral_of_ne hOpening hClosing hBar hBackslash)

/-- **The nodes of a legible run without a report leave no brace over** when they are
written one after the other. -/
theorem settled_nodesOf {maxDepth depth : Nat} {ls : List Lexeme}
    (hRecut : Lexeme.Recut ls) (hLone : .backslash ∉ (ls.map Lexeme.token).dropLast)
    (hNone : reportsOf maxDepth (depth + 1) ls = [])
    (hLegible : Node.isLegibleAll false (nodesOf (depth + 1) ls) = true) :
    Settled (depth + 1) (Token.ofText ((nodesOf (depth + 1) ls).flatMap Node.source)) := by
  induction ls using Lexeme.run_induction with
  | nil =>
    rw [nodesOf_nil]
    exact Nested.nil.settled
  | literal l ls hTok ih =>
    have hOne : Lexeme.Recut [l] := hRecut.of_subset (by simp)
    have hReports := hNone
    rw [reportsOf_literal hTok, List.append_eq_nil_iff] at hReports
    -- outside of all choices a closing brace would be reported
    have hClosing : l.token ≠ .closing := by
      intro hClosing
      exact absurd hReports.1 (by simp [Item.literalReport, hClosing])
    rw [nodesOf_literal hTok, isLegibleAll_consText_iff hOne
      (ne_backslash_of_nodesOf hLone)] at hLegible
    have hRest := ih (hRecut.of_subset fun m hm => List.mem_cons_of_mem l hm)
      (backslash_not_mem_of_suffix hLone (List.suffix_cons l ls)) hReports.2 hLegible.2
    have hFirst : Settled (depth + 1) [l.token] := .singleton hTok hClosing (Nat.succ_pos depth)
    rw [nodesOf_literal hTok, Node.flatMap_source_consText]
    by_cases hBackslash : l.token = .backslash
    · -- a lone backslash is the end of the text
      have hnil : nodesOf (depth + 1) ls = [] := Classical.byContradiction fun hne =>
        ne_backslash_of_nodesOf hLone hne hBackslash
      rw [hBackslash] at hFirst
      rw [hnil, List.flatMap_nil, List.append_nil, Lexeme.spelling, hBackslash]
      exact hFirst
    · rw [hOne l (List.mem_singleton_self l) hBackslash]
      exact hFirst.append hRest
  | stray l hTok =>
    rw [reportsOf_stray hTok] at hNone
    exact absurd hNone (List.cons_ne_nil _ _)
  | closed l ls r hTok hr ih =>
    have hSuffix := Body.suffix_cons_of_rest hr l
    rw [reportsOf_closed hTok hr, List.append_eq_nil_iff, List.flatMap_eq_nil_iff] at hNone
    rw [nodesOf_closed hTok hr, Node.isLegibleAll, Bool.and_eq_true] at hLegible
    have hRest := ih (hRecut.of_subset fun m hm => hSuffix.subset hm)
      (backslash_not_mem_of_suffix hLone hSuffix) hNone.2 hLegible.2
    -- a choice that is closed leaves nothing open, so what follows settles for both
    have hChoice := balanced_closed (fun o => balanced_nodesOf) hr hRecut hLone hNone.1 hLegible.1
    rw [nodesOf_closed hTok hr, List.flatMap_cons, Token.ofText_append hChoice.lone]
    exact (hChoice.nested (Nat.le_refl _)).settled.append hRest
  | unclosed l ls hTok hne hr =>
    rw [reportsOf_unclosed hTok hne hr] at hNone
    exact absurd hNone (List.cons_ne_nil _ _)

/-! ## Texts -/

/-- What comes back from a text without a report, if its tree is legible, is read without
a report. -/
theorem diagnostics_rewritten_eq_nil {maxDepth : Nat} {s : List Char}
    (hNone : (Reading.ofText maxDepth s).diagnostics = [])
    (hLegible : (Reading.ofText maxDepth s).root.isLegible false = true) :
    (Reading.ofText maxDepth (rewritten maxDepth s)).diagnostics = [] := by
  cases maxDepth with
  | zero =>
    -- nothing is cut at all, so the normal text comes back
    have hText : rewritten 0 s = Text.normalize s := by
      have hSpell := Lexeme.spellAll_ofText (Text.normalize s)
      rw [rewritten, Reading.ofText, Reading.ofNormal, Node.source_root, nodesOf,
        Node.flatMap_source_consText, List.flatMap_nil, List.append_nil]
      exact hSpell
    rw [hText, Reading.ofText, Text.normalize_normalize]
    exact hNone
  | succ depth =>
    refine diagnostics_eq_nil_of_settled (normalize_rewritten _ s) (Nat.succ_pos depth) ?_
    rw [rewritten, Reading.ofText, Reading.ofNormal, Node.source_root]
    exact settled_nodesOf (Lexeme.recut_ofText _) (backslash_not_mem_ofText _) hNone hLegible

/-- **What comes back from a text without a report is read without a report, and as the
same tree, exactly when no pair of the text is cut.** -/
theorem clean_rewritten_iff {maxDepth : Nat} {s : List Char}
    (hNone : (Reading.ofText maxDepth s).diagnostics = []) :
    ((Reading.ofText maxDepth (rewritten maxDepth s)).diagnostics = [] ∧
        (Reading.ofText maxDepth (rewritten maxDepth s)).root =
          (Reading.ofText maxDepth s).root) ↔
      Text.cutsPair s = false := by
  have hDeep := not_isNestingTooDeep_of_eq_nil hNone
  rw [← isLegible_ofText_iff hNone]
  constructor
  · rintro ⟨hNone', hRoot⟩
    -- the same tree is written as the same text, and what is written so is legible
    have hText : rewritten maxDepth (rewritten maxDepth s) = rewritten maxDepth s :=
      congrArg Node.source hRoot
    rw [← hRoot]
    exact isLegible_of_rewritten_eq (not_isNestingTooDeep_of_eq_nil hNone')
      (normalize_rewritten maxDepth s) hText
  · intro hLegible
    have hNone' := diagnostics_rewritten_eq_nil hNone hLegible
    exact ⟨hNone', root_ofText_rewritten hDeep (not_isNestingTooDeep_of_eq_nil hNone') hLegible⟩

/-- The pair at the end of the option is cut, and the backslash takes the closing brace
along. -/
example :
    Text.cutsPair ['{', '\\', ' ', '}'] = true ∧
      (Reading.ofText 128 (rewritten 128 ['{', '\\', ' ', '}'])).diagnostics =
        [.unterminatedChoice 0] := by decide +kernel

end Spintax
