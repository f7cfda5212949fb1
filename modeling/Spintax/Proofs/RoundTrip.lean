import Mathlib.Logic.Function.Iterate
import Spintax.Proofs.LegibleRuns

/-!
# Spintax — reading what was written back

A text is read, its tree is written, that text is read again, and so on. Is the
second tree the last one? It is when it is legible, and only then: what it
keeps of a brace that was left open, or of a pair that was cut, reads as
structure the next time.

* `readsAtRoot_nodesOf` — at the root every text is text;
* `isLegibleAll_of_source_eq` — a text that comes back unchanged gives a
  legible tree;
* `root_ofText_source_secondTree` — the second tree is read back exactly when it
  is legible, which it is if the text has no pair with a blank and no lone
  backslash.
-/

namespace Spintax

/-! ## Texts at the root -/

/-- A lexeme that opens nothing may come before nodes that read at the root, if it takes
nothing along. -/
theorem readsAtRoot_consText {l : Lexeme} (hRecut : Lexeme.Recut [l]) (hTok : l.token ≠ .opening)
    {ns : List Node} (hLone : ns ≠ [] → l.token ≠ .backslash)
    (hJoined : Node.isJoined ns = true) (h : Node.ReadsAtRoot ns) :
    Node.ReadsAtRoot (Node.consText l.spelling ns) := by
  have hCut := fun hne => hRecut l (List.mem_singleton_self l) (hLone hne)
  rcases Node.consText_cases l.spelling_ne_nil ns with ⟨hHead, hEq⟩ | ⟨t, ns', rfl, hEq⟩
  · rw [hEq]
    -- at the very end a lone backslash is allowed
    cases ns with
    | nil =>
      have hOne : Token.ofText l.spelling = [l.token] := by
        by_cases hBackslash : l.token = .backslash
        · rw [Lexeme.spelling, hBackslash]
          rfl
        · have hCut := hRecut l (List.mem_singleton_self l) hBackslash []
          rwa [List.append_nil] at hCut
      simp [Node.ReadsAtRoot, hOne]
    | cons n ns =>
      have hOne := hCut (List.cons_ne_nil n ns) []
      rw [List.append_nil] at hOne
      rw [Node.ReadsAtRoot]
      · refine ⟨?_, ?_, h⟩
        · simpa [hOne, Token.ofText] using hTok.symm
        · simpa [hOne, Token.ofText] using (hLone (List.cons_ne_nil n ns)).symm
      · simp
  · have hText := hCut (List.cons_ne_nil _ _) t
    have ht : Token.ofText t ≠ [] :=
      mt Token.ofText_eq_nil.mp ((Node.isJoined_text_cons t ns').mp hJoined).1
    rw [hEq]
    cases ns' with
    | nil =>
      rw [Node.ReadsAtRoot] at h ⊢
      rw [hText, List.dropLast_cons_of_ne_nil ht, List.mem_cons, not_or]
      exact ⟨hTok.symm, h⟩
    | cons n ns =>
      rw [Node.ReadsAtRoot] at h ⊢
      · rw [hText, List.mem_cons, List.mem_cons, not_or, not_or]
        exact ⟨⟨hTok.symm, h.1⟩, ⟨(hLone (List.cons_ne_nil _ _)).symm, h.2.1⟩, h.2.2⟩
      all_goals simp

/-- At the root every text is text, for a run without a lone backslash but at
its end. -/
theorem readsAtRoot_nodesOf {maxDepth depth : Nat} {ls : List Lexeme} (hRecut : Lexeme.Recut ls)
    (hLone : .backslash ∉ (ls.map Lexeme.token).dropLast)
    (hDeep : ∀ d ∈ reportsOf maxDepth depth ls, d.isNestingTooDeep = false) :
    Node.ReadsAtRoot (nodesOf depth ls) := by
  induction ls using Lexeme.run_induction with
  | nil =>
    rw [nodesOf_nil]
    trivial
  | literal l ls hTok ih =>
    -- a lone backslash has nothing behind it, neither lexemes nor nodes
    have hFirst : nodesOf depth ls ≠ [] → l.token ≠ .backslash := by
      intro hne hBackslash
      have hMap : ls.map Lexeme.token ≠ [] :=
        mt List.map_eq_nil_iff.mp (mt nodesOf_eq_nil.mpr hne)
      rw [List.map_cons, List.dropLast_cons_of_ne_nil hMap, hBackslash] at hLone
      exact hLone (List.mem_cons_self ..)
    rw [nodesOf_literal hTok]
    refine readsAtRoot_consText (hRecut.of_subset (by simp)) hTok hFirst (isJoined_nodesOf _ _) ?_
    exact ih (hRecut.of_subset fun m hm => List.mem_cons_of_mem l hm)
      (backslash_not_mem_of_suffix hLone (List.suffix_cons l ls)) (deep_of_literal hTok hDeep)
  | stray l hTok =>
    obtain ⟨depth, rfl⟩ := exists_depth_of_deep hTok hDeep
    rw [nodesOf_singleton, Lexeme.spelling, hTok]
    simp [Node.ReadsAtRoot, Token.spelling, Token.ofText]
  | closed l ls r hTok hr ih =>
    obtain ⟨depth, rfl⟩ := exists_depth_of_deep hTok hDeep
    have hSuffix := Body.suffix_cons_of_rest hr l
    rw [reportsOf_closed hTok hr] at hDeep
    rw [nodesOf_closed hTok hr]
    show Node.ReadsAtRoot (nodesOf (depth + 1) r)
    exact ih (hRecut.of_subset fun m hm => hSuffix.subset hm)
      (backslash_not_mem_of_suffix hLone hSuffix) (fun d hd => hDeep d (List.mem_append_right _ hd))
  | unclosed l ls hTok hne hr =>
    obtain ⟨depth, rfl⟩ := exists_depth_of_deep hTok hDeep
    rw [nodesOf_unclosed hTok hne hr]
    trivial

/-! ## Texts that come back unchanged -/

/-- Options that are closed have something after them. -/
theorem Body.mem_dropLast_of_mem_options {ls r : List Lexeme}
    (hr : (ofLexemes 0 ls).rest? = some r) {o : List Lexeme} (ho : o ∈ (ofLexemes 0 ls).options)
    {l : Lexeme} (hl : l ∈ o) : l ∈ ls.dropLast := by
  induction ls using cut_induction with
  | last x k hk => exact absurd hr (by simp)
  | close x m r' hx hTok =>
    obtain rfl : o = x := by simpa [options] using ho
    rw [List.dropLast_append_of_ne_nil (List.cons_ne_nil m r')]
    exact List.mem_append_left _ hl
  | next x m r' hx hTok ih =>
    rw [List.dropLast_append_of_ne_nil (List.cons_ne_nil m r')]
    rcases List.mem_cons.mp ho with rfl | ho
    · exact List.mem_append_left _ hl
    · have hMem := ih hr ho
      have hne : r' ≠ [] := by
        rintro rfl
        exact absurd hMem (by simp)
      rw [List.dropLast_cons_of_ne_nil hne]
      exact List.mem_append_right _ (List.mem_cons_of_mem m hMem)

open Text (Thinned)

/-- A closed choice, when each option is written as `f` and what follows it as
`t`. If nothing is lost as a whole, each part is written as it was. -/
theorem options_eq_spellAll {f : List Lexeme → List Char} {ls r : List Lexeme} {t : List Char}
    (hr : (Body.ofLexemes 0 ls).rest? = some r)
    (hOption : ∀ o ∈ (Body.ofLexemes 0 ls).options, Thinned (Lexeme.spellAll o) (f o))
    (hRest : Thinned (Lexeme.spellAll r) t) :
    Thinned (Lexeme.spellAll ls)
        (['|'].intercalate ((Body.ofLexemes 0 ls).options.map f) ++ '}' :: t) ∧
      (['|'].intercalate ((Body.ofLexemes 0 ls).options.map f) ++ '}' :: t = Lexeme.spellAll ls →
        (∀ o ∈ (Body.ofLexemes 0 ls).options, f o = Lexeme.spellAll o) ∧
          t = Lexeme.spellAll r) := by
  induction ls using Body.cut_induction with
  | last o k hk => exact absurd hr (by simp)
  | close o l r' ho hTok =>
    obtain rfl := Option.some.inj hr
    have hl : l.spelling = ['}'] := Lexeme.spelling_of_token hTok
    have ho := hOption o (by simp [Body.options])
    have hBrace := Thinned.keep '}' hRest
    have hOne : ['|'].intercalate ([o].map f) = f o := by simp [List.intercalate]
    rw [Lexeme.spellAll_append, Lexeme.spellAll_cons, hl, Body.options, hOne]
    refine ⟨ho.append hBrace, fun hEq => ?_⟩
    -- neither part can make up for a blank that the other one lost
    obtain ⟨hFirst, hLast⟩ := ho.append_inj hBrace hEq
    exact ⟨by simpa using hFirst, (List.cons.inj hLast).2⟩
  | next o l r' ho hTok ih =>
    have hl : l.spelling = ['|'] := Lexeme.spelling_of_token hTok
    obtain ⟨hThin, hParts⟩ := ih hr fun x hx => hOption x (List.mem_cons_of_mem o hx)
    have ho := hOption o (by simp [Body.options])
    have hBar := Thinned.keep '|' hThin
    have hCons : ∀ b : Body, ['|'].intercalate ((o :: b.options).map f) =
        f o ++ '|' :: ['|'].intercalate (b.options.map f) := by
      intro b
      rw [Body.options, List.map_cons, List.map_cons, List.intercalate_cons_cons,
        List.append_assoc, List.singleton_append]
    rw [Lexeme.spellAll_append, Lexeme.spellAll_cons, hl, Body.options, hCons, List.append_assoc]
    refine ⟨ho.append hBar, fun hEq => ?_⟩
    obtain ⟨hFirst, hLast⟩ := ho.append_inj hBar hEq
    obtain ⟨hOthers, hRest⟩ := hParts (List.cons.inj hLast).2
    exact ⟨List.forall_mem_cons.mpr ⟨hFirst, hOthers⟩, hRest⟩

/-- An option that is written as it was has lost no blank: its run was trimmed
before, and its nodes are written as the run. -/
theorem option_source_eq {depth : Nat} {o : List Lexeme} (hClosed : Lexeme.Closed o)
    (hEq : (optionNode (nodesOf depth) o).source = Lexeme.spellAll o) :
    Lexeme.trimEnd o = o ∧
      (nodesOf depth (Lexeme.trim o)).flatMap Node.source = Lexeme.spellAll (Lexeme.trim o) := by
  have hTrim := Text.thinned_trim (Lexeme.spellAll o)
  rw [← Lexeme.spellAll_trim] at hTrim
  have hNodes := thinned_nodesOf 0 depth (Lexeme.trim o)
  rw [unterminated_of_closed 0 depth hClosed.trim, List.replicate_zero, List.append_nil] at hNodes
  have hForm := Node.thinned_optionOf (nodesOf depth (Lexeme.trim o))
  rw [← optionNode_nodesOf, hEq] at hForm
  -- the text goes round from the run through the trimmed run and the nodes to the run
  have hSpell := hTrim.antisymm (hNodes.trans hForm)
  refine ⟨Lexeme.trimEnd_eq_self ?_, hNodes.antisymm (hForm.trans hTrim)⟩
  rw [Text.trimEnd_eq_self_iff, ← hSpell, Lexeme.spellAll_trim]
  exact Text.endsBlank_trim _

/-- A closed choice that is written as it was: so is each of its options, and
what follows it. -/
theorem choice_source_eq {maxDepth depth : Nat} {l : Lexeme} {ls r : List Lexeme}
    (hTok : l.token = .opening) (hr : (Body.ofLexemes 0 ls).rest? = some r)
    (hNone : unterminated (reportsOf maxDepth (depth + 1) r) = 0)
    (hEq : (nodesOf (depth + 1) (l :: ls)).flatMap Node.source = Lexeme.spellAll (l :: ls)) :
    (∀ o ∈ (Body.ofLexemes 0 ls).options,
        (optionNode (nodesOf depth) o).source = Lexeme.spellAll o) ∧
      (nodesOf (depth + 1) r).flatMap Node.source = Lexeme.spellAll r := by
  have hOption : ∀ o ∈ (Body.ofLexemes 0 ls).options,
      Thinned (Lexeme.spellAll o) (optionNode (nodesOf depth) o).source := by
    intro o ho
    have h := thinned_optionNode maxDepth depth (thinned_nodesOf maxDepth depth) o
    rwa [unterminated_option_of_closed maxDepth depth o (Body.closed_of_mem_options hr o ho),
      List.replicate_zero, List.append_nil] at h
  have hRest := thinned_nodesOf maxDepth (depth + 1) r
  rw [hNone, List.replicate_zero, List.append_nil] at hRest
  have hBody : ['|'].intercalate ((Body.ofLexemes 0 ls).options.map
      fun o => (optionNode (nodesOf depth) o).source) ++
      '}' :: (nodesOf (depth + 1) r).flatMap Node.source = Lexeme.spellAll ls := by
    have hl : l.spelling = ['{'] := Lexeme.spelling_of_token hTok
    rw [nodesOf_closed hTok hr, List.flatMap_cons, Node.source_choice, List.map_map,
      Lexeme.spellAll_cons, hl] at hEq
    simpa [Function.comp_def] using hEq
  exact (options_eq_spellAll hr hOption hRest).2 hBody

/-- **Nodes that are written as their run are legible.** A brace left open would
have got its closing brace, and a pair that was cut would have lost its blank. -/
theorem isLegibleAll_of_source_eq {maxDepth depth : Nat} {ls : List Lexeme} {inOption : Bool}
    (hRecut : Lexeme.Recut ls) (hLone : .backslash ∉ (ls.map Lexeme.token).dropLast)
    (hDeep : ∀ d ∈ reportsOf maxDepth depth ls, d.isNestingTooDeep = false)
    (hNone : unterminated (reportsOf maxDepth depth ls) = 0)
    (hInside : inOption = true → Lexeme.Closed ls ∧ .backslash ∉ ls.map Lexeme.token)
    (hEq : (nodesOf depth ls).flatMap Node.source = Lexeme.spellAll ls) :
    Node.isLegibleAll inOption (nodesOf depth ls) = true := by
  induction depth using Nat.strongRecOn generalizing ls inOption with
  | _ depth ihDepth =>
    -- an option that is written as it was had nothing to trim, so no pair was cut
    have hOption : ∀ d < depth, ∀ {o : List Lexeme}, Lexeme.Recut o → Lexeme.Closed o →
        .backslash ∉ o.map Lexeme.token →
        (∀ r ∈ optionReports (reportsOf maxDepth d) o, r.isNestingTooDeep = false) →
        (optionNode (nodesOf d) o).source = Lexeme.spellAll o →
        Node.isLegible inOption (optionNode (nodesOf d) o) = true := by
      intro d hd o hRecut hClosed hLone hDeep hEq
      obtain ⟨hTrim, hEq⟩ := option_source_eq hClosed hEq
      have hLone : .backslash ∉ (Lexeme.trim o).map Lexeme.token := by
        rw [Lexeme.trim_eq_dropWhile_trimEnd, hTrim]
        exact fun hMem => hLone (((List.dropWhile_suffix _).map _).subset hMem)
      rw [optionReports_reportsOf] at hDeep
      rw [optionNode_eq_wrap]
      exact isLegible_wrapOption (ihDepth d hd hRecut.trim
        (fun hMem => hLone (List.dropLast_subset _ hMem)) hDeep
        (unterminated_of_closed maxDepth d hClosed.trim) (fun _ => ⟨hClosed.trim, hLone⟩) hEq) _
    induction ls using Lexeme.run_induction with
    | nil =>
      rw [nodesOf_nil]
      rfl
    | literal l ls hTok ih =>
      have hSuffix := List.suffix_cons l ls
      have hStays : inOption = true → l.token.isLiteral = true ∧ Lexeme.Closed ls ∧
          .backslash ∉ ls.map Lexeme.token := by
        intro hIn
        obtain ⟨hClosed, hLone⟩ := hInside hIn
        obtain ⟨hClosing, hBar, hClosed⟩ := Lexeme.levelAfter_of_literal hTok hClosed
        rw [List.map_cons, List.mem_cons, not_or] at hLone
        exact ⟨Token.isLiteral_of_ne hTok hClosing hBar (Ne.symm hLone.1), hClosed, hLone.2⟩
      rw [nodesOf_literal hTok, Node.flatMap_source_consText, Lexeme.spellAll_cons,
        List.append_cancel_left_eq] at hEq
      rw [unterminated_literal hTok] at hNone
      rw [nodesOf_literal hTok]
      refine isLegibleAll_consText (hRecut.of_subset (by simp)) (fun hIn => (hStays hIn).1) ?_
      exact ih (hRecut.of_subset fun m hm => List.mem_cons_of_mem l hm)
        (backslash_not_mem_of_suffix hLone hSuffix) (deep_of_literal hTok hDeep) hNone
        (fun hIn => (hStays hIn).2) hEq
    | stray l hTok =>
      obtain ⟨depth, rfl⟩ := exists_depth_of_deep hTok hDeep
      cases inOption with
      | false =>
        rw [nodesOf_singleton]
        rfl
      | true =>
        -- a closed run does not end with a brace that opens
        exact absurd hTok ((hInside rfl).1.getLast?_ne_opening rfl)
    | closed l ls r hTok hr ih =>
      obtain ⟨depth, rfl⟩ := exists_depth_of_deep hTok hDeep
      have hSuffix := Body.suffix_cons_of_rest hr l
      rw [reportsOf_closed hTok hr] at hDeep hNone
      rw [unterminated_append] at hNone
      have hNone : unterminated (reportsOf maxDepth (depth + 1) r) = 0 := by omega
      obtain ⟨hOptions, hRestEq⟩ := choice_source_eq hTok hr hNone hEq
      have hLegible := ih (hRecut.of_subset fun m hm => hSuffix.subset hm)
        (backslash_not_mem_of_suffix hLone hSuffix)
        (fun d hd => hDeep d (List.mem_append_right _ hd)) hNone (fun hIn => ?_) hRestEq
      · rw [nodesOf_closed hTok hr, Node.isLegibleAll, hLegible, Bool.and_true, Node.isLegible,
          Node.isLegibleAll_iff]
        intro n hn
        obtain ⟨o, ho, rfl⟩ := List.mem_map.mp hn
        -- the closing brace comes after the options, so none of them holds a lone backslash
        have hMem : ∀ m ∈ o, m ∈ (l :: ls).dropLast := by
          intro m hm
          have hMem := Body.mem_dropLast_of_mem_options hr ho hm
          have hne : ls ≠ [] := by
            rintro rfl
            exact absurd hMem (by simp)
          rw [List.dropLast_cons_of_ne_nil hne]
          exact List.mem_cons_of_mem l hMem
        refine hOption depth (Nat.lt_succ_self depth)
          (hRecut.of_subset fun m hm => List.dropLast_subset _ (hMem m hm))
          (Body.closed_of_mem_options hr o ho) ?_
          (fun d hd => hDeep d (List.mem_append_left _ (List.mem_flatMap.mpr ⟨o, ho, hd⟩)))
          (hOptions o ho)
        intro hBackslash
        obtain ⟨m, hm, hTok⟩ := List.mem_map.mp hBackslash
        rw [← List.map_dropLast] at hLone
        exact hLone (List.mem_map.mpr ⟨m, hMem m hm, hTok⟩)
      · obtain ⟨hClosed, hBackslash⟩ := hInside hIn
        exact ⟨Lexeme.levelAfter_of_choice hTok hr hClosed, fun hMem =>
          hBackslash ((hSuffix.map _).subset hMem)⟩
    | unclosed l ls hTok hne hr =>
      obtain ⟨depth, rfl⟩ := exists_depth_of_deep hTok hDeep
      -- this choice lacks its brace, and none was lacking
      rw [reportsOf_unclosed hTok hne hr, unterminated, List.countP_cons_of_pos rfl] at hNone
      omega

/-! ## Texts -/

/-- The text that comes back when the tree of a text is written. -/
def rewritten (maxDepth : Nat) (s : List Char) : List Char :=
  (Reading.ofText maxDepth s).root.source

/-- The tree that a text has after it has come back. -/
def secondTree (maxDepth : Nat) (s : List Char) : Node :=
  (Reading.ofText maxDepth (rewritten maxDepth s)).root

theorem normalize_rewritten (maxDepth : Nat) (s : List Char) :
    Text.normalize (rewritten maxDepth s) = rewritten maxDepth s :=
  normalize_source (isTidy_ofText maxDepth s) fun _ => kind_of_mem_nodesOf

/-- The text that comes back is the normal text, with the closing braces that
were lacking at its end and without some blanks. -/
theorem thinned_rewritten (maxDepth : Nat) (s : List Char) :
    Thinned
      (Text.normalize s ++
        List.replicate (unterminated (Reading.ofText maxDepth s).diagnostics) '}')
      (rewritten maxDepth s) := by
  have hThin := thinned_nodesOf maxDepth maxDepth (Lexeme.ofText (Text.normalize s))
  rw [Lexeme.spellAll_ofText, ← Node.source_root] at hThin
  exact hThin

/-- A lone backslash can only be the last lexeme of a text. -/
theorem backslash_not_mem_ofText (s : List Char) :
    .backslash ∉ ((Lexeme.ofText s).map Lexeme.token).dropLast := by
  rw [Lexeme.ofText, Lexeme.map_token_place]
  exact Token.backslash_not_mem_dropLast s

/-- The tree of a text is read back if it is legible. -/
theorem root_ofText_rewritten {maxDepth : Nat} {s : List Char}
    (hDeep : ∀ d ∈ (Reading.ofText maxDepth s).diagnostics, d.isNestingTooDeep = false)
    (hDeep' : ∀ d ∈ (Reading.ofText maxDepth (rewritten maxDepth s)).diagnostics,
      d.isNestingTooDeep = false)
    (hLegible : (Reading.ofText maxDepth s).root.isLegible false = true) :
    (Reading.ofText maxDepth (rewritten maxDepth s)).root = (Reading.ofText maxDepth s).root :=
  root_ofText_source (isTidy_ofText maxDepth s) (wellFormed_ofText maxDepth s) hLegible
    (readsAtRoot_nodesOf (Lexeme.recut_ofText _) (backslash_not_mem_ofText _) hDeep) hDeep'

/-- The tree of a text that comes back unchanged is legible. -/
theorem isLegible_of_rewritten_eq {maxDepth : Nat} {s : List Char}
    (hDeep : ∀ d ∈ (Reading.ofText maxDepth s).diagnostics, d.isNestingTooDeep = false)
    (hNormal : Text.normalize s = s) (hEq : rewritten maxDepth s = s) :
    (Reading.ofText maxDepth s).root.isLegible false = true := by
  have hThin := thinned_nodesOf maxDepth maxDepth (Lexeme.ofText s)
  have hSource : (nodesOf maxDepth (Lexeme.ofText s)).flatMap Node.source = s := by
    rw [rewritten, Reading.ofText, Reading.ofNormal, Node.source_root, hNormal] at hEq
    exact hEq
  rw [Lexeme.spellAll_ofText, hSource] at hThin
  -- no brace was added, so none was missing
  have hNone : unterminated (reportsOf maxDepth maxDepth (Lexeme.ofText s)) = 0 := by
    have hKept := congrArg List.length hThin.filter_eq
    rw [List.filter_append, List.filter_replicate_of_pos (by decide), List.length_append,
      List.length_replicate] at hKept
    omega
  rw [Reading.ofText, Reading.ofNormal, hNormal] at hDeep ⊢
  exact isLegibleAll_of_source_eq (Lexeme.recut_ofText s) (backslash_not_mem_ofText s) hDeep hNone
    (by simp) (by rw [hSource, Lexeme.spellAll_ofText])

/-- No lexeme of a whole text can be cut. -/
theorem isWhole_of_mem_ofText {s : List Char} (h : Text.isWhole s = true) :
    ∀ l ∈ Lexeme.ofText s, l.token.isWhole = true := by
  intro l hl
  have hMap := List.mem_map_of_mem (f := Lexeme.token) hl
  rw [Lexeme.ofText, Lexeme.map_token_place] at hMap
  exact List.all_eq_true.mp h _ hMap

/-- The second tree of a whole text is legible: either no choice was left open,
or closing braces now stand at the end. -/
theorem isLegible_secondTree {maxDepth : Nat} {s : List Char}
    (hDeep : ∀ d ∈ (Reading.ofText maxDepth s).diagnostics, d.isNestingTooDeep = false)
    (hDeep' : ∀ d ∈ (Reading.ofText maxDepth (rewritten maxDepth s)).diagnostics,
      d.isNestingTooDeep = false)
    (hWhole : Text.isWhole (Text.normalize s) = true) :
    (secondTree maxDepth s).isLegible false = true := by
  have hThin := thinned_rewritten maxDepth s
  cases hCount : unterminated (Reading.ofText maxDepth s).diagnostics with
  | zero =>
    -- the first tree is legible already, so the second is the same
    have hLegible : (Reading.ofText maxDepth s).root.isLegible false = true :=
      isLegibleAll_of_isWhole (Lexeme.recut_ofText _) (isWhole_of_mem_ofText hWhole)
        (Lexeme.trimEnd_ofText (Text.endsBlank_normalize s)) hDeep (by simp) (.inl ⟨rfl, hCount⟩)
    rw [secondTree, root_ofText_rewritten hDeep hDeep' hLegible]
    exact hLegible
  | succ n =>
    rw [hCount, List.replicate_succ', ← List.append_assoc] at hThin
    obtain ⟨t, hText, hThin⟩ := hThin.exists_append (by decide)
    have ht : Text.isWhole t = true :=
      Text.isWhole_of_thinned hThin (Text.isWhole_append hWhole (Text.isWhole_replicate n))
    -- the text that comes back ends with a closing brace, which no backslash takes along
    have hTokens : (Lexeme.ofText (rewritten maxDepth s)).map Lexeme.token =
        Token.ofText t ++ [.closing] := by
      rw [Lexeme.ofText, Lexeme.map_token_place, hText,
        Token.ofText_append (Text.backslash_not_mem_of_isWhole ht)]
      rfl
    have hLast : ∀ l, (Lexeme.ofText (rewritten maxDepth s)).getLast? = some l →
        l.token ≠ .opening := by
      intro l hl
      have hMap := congrArg List.getLast? hTokens
      rw [List.getLast?_map, hl, List.getLast?_concat] at hMap
      simp [Option.some.inj hMap]
    have hWhole : Text.isWhole (rewritten maxDepth s) = true := by
      rw [hText]
      exact Text.isWhole_append ht (by decide)
    have hEnd : Text.endsBlank (rewritten maxDepth s) = false := by
      rw [← normalize_rewritten]
      exact Text.endsBlank_normalize _
    rw [Reading.ofText, Reading.ofNormal, normalize_rewritten] at hDeep'
    rw [secondTree, Reading.ofText, Reading.ofNormal, normalize_rewritten]
    exact isLegibleAll_of_isWhole (Lexeme.recut_ofText _) (isWhole_of_mem_ofText hWhole)
      (Lexeme.trimEnd_ofText hEnd) hDeep' (by simp) (.inr hLast)

/-- **The second tree of a text is read back exactly when it is legible**, and
then every later text is the same. It is legible if the text has no pair with a
blank and no lone backslash. -/
theorem root_ofText_source_secondTree {maxDepth : Nat} {s : List Char}
    (hDeep₀ : ∀ d ∈ (Reading.ofText maxDepth s).diagnostics, d.isNestingTooDeep = false)
    (hDeep₁ : ∀ d ∈ (Reading.ofText maxDepth (rewritten maxDepth s)).diagnostics,
      d.isNestingTooDeep = false)
    (hDeep₂ : ∀ d ∈ (Reading.ofText maxDepth (secondTree maxDepth s).source).diagnostics,
      d.isNestingTooDeep = false) :
    ((Reading.ofText maxDepth (secondTree maxDepth s).source).root = secondTree maxDepth s ↔
        (secondTree maxDepth s).isLegible false = true) ∧
      ((secondTree maxDepth s).isLegible false = true →
        ∀ n, (rewritten maxDepth)^[n + 2] s = (secondTree maxDepth s).source) ∧
      (Text.isWhole (Text.normalize s) = true →
        (secondTree maxDepth s).isLegible false = true) := by
  have hBack : (secondTree maxDepth s).isLegible false = true →
      (Reading.ofText maxDepth (secondTree maxDepth s).source).root = secondTree maxDepth s :=
    root_ofText_rewritten hDeep₁ hDeep₂
  refine ⟨⟨fun hFixed => ?_, hBack⟩, fun hLegible n => ?_, isLegible_secondTree hDeep₀ hDeep₁⟩
  · -- a tree that is read back has a source that comes back
    rw [← hFixed]
    refine isLegible_of_rewritten_eq hDeep₂ (normalize_rewritten maxDepth _) ?_
    rw [rewritten, hFixed]
  · -- once a text comes back unchanged, every later one is the same
    have hFixed : rewritten maxDepth (secondTree maxDepth s).source =
        (secondTree maxDepth s).source := by
      rw [rewritten, hBack hLegible]
    rw [Function.iterate_add_apply]
    exact Function.iterate_fixed hFixed n

/-- A choice that is left open, with a stray brace in it, is read back from the second
tree on. -/
theorem secondTree_fixed_of_open :
    (Reading.ofText 128 (secondTree 128 ['{', 'a', '{']).source).root =
      secondTree 128 ['{', 'a', '{'] :=
  (root_ofText_source_secondTree (s := ['{', 'a', '{']) (by decide +kernel) (by decide +kernel)
    (by decide +kernel)).1.mpr (by decide +kernel)

/-- Trimming cuts the pair, and the backslash that is left takes the closing
brace along; then the brace at the end stands inside the choice. -/
example :
    (Reading.ofText 128 (secondTree 128 ['{', '\\', ' ', '}', '{']).source).root ≠
      secondTree 128 ['{', '\\', ' ', '}', '{'] := by decide +kernel

end Spintax
