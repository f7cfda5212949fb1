import Spintax.Proofs.Trimming

/-!
# Spintax — reading a run, case by case

The nodes and the reports of a run, said once for each way in which a run may
begin: with a lexeme that stands for itself, with a brace at its very end, with
a choice that is closed, with one that is not. These equations and
`Lexeme.run_induction` are all that later proofs know of reading.

* `isNestingTooDeep_of_closed` — where braces are balanced there is nothing to
  repair but what lies too deep.
-/

namespace Spintax

variable {l : Lexeme} {ls r : List Lexeme}

/-! ## Nodes -/

theorem nodesOf_nil (depth : Nat) : nodesOf depth [] = [] := by
  cases depth with
  | zero => rfl
  | succ depth => rw [nodesOf, Item.ofLexemes_nil, assemble]

/-- An option is read from its run, trimmed. -/
theorem optionNode_nodesOf (depth : Nat) (o : List Lexeme) :
    optionNode (nodesOf depth) o = Node.optionOf (nodesOf depth (Lexeme.trim o)) := by
  rw [optionNode]
  split
  · next hnil => rw [hnil, nodesOf_nil]; rfl
  · rfl

theorem Node.consText_nil (ns : List Node) : Node.consText [] ns = ns := by
  cases ns with
  | nil => rfl
  | cons n ns => cases n <;> rfl

theorem Node.consText_choice (s : List Char) (options ns : List Node) :
    Node.consText s (.choice options :: ns) = Node.consText s [] ++ .choice options :: ns := by
  cases s <;> rfl

/-- Texts that come in front one after the other are joined. -/
theorem Node.consText_append (s t : List Char) (ns : List Node) :
    Node.consText (s ++ t) ns = Node.consText s (Node.consText t ns) := by
  cases ns with
  | nil => cases s <;> cases t <;> simp [consText]
  | cons n ns => cases n <;> cases s <;> cases t <;> simp [consText]

/-- At any depth: where nothing is cut, every lexeme stands for itself. -/
theorem nodesOf_literal (hTok : l.token ≠ .opening) (depth : Nat) (ls : List Lexeme) :
    nodesOf depth (l :: ls) = Node.consText l.spelling (nodesOf depth ls) := by
  cases depth with
  | zero => rw [nodesOf, nodesOf, Lexeme.spellAll_cons, Node.consText_append]
  | succ depth => rw [nodesOf, Item.ofLexemes_cons_of_ne_opening hTok, assemble, ← nodesOf]

/-- A single lexeme is a text, even if it is a brace. -/
theorem nodesOf_singleton (depth : Nat) (l : Lexeme) :
    nodesOf (depth + 1) [l] = [.text l.spelling] := by
  rw [nodesOf, Item.ofLexemes_singleton, assemble, assemble,
    Node.consText_of_ne_nil l.spelling_ne_nil]

/-- A brace that is closed opens a choice, whose options are read one level down. -/
theorem nodesOf_closed (hTok : l.token = .opening) (hr : (Body.ofLexemes 0 ls).rest? = some r)
    (depth : Nat) :
    nodesOf (depth + 1) (l :: ls) =
      .choice ((Body.ofLexemes 0 ls).options.map (optionNode (nodesOf depth))) ::
        nodesOf (depth + 1) r := by
  rw [nodesOf, Item.ofLexemes_closed hTok hr, assemble, ← nodesOf]

/-- A brace that is not closed opens a choice that takes up the rest. -/
theorem nodesOf_unclosed (hTok : l.token = .opening) (hne : ls ≠ [])
    (hr : (Body.ofLexemes 0 ls).rest? = none) (depth : Nat) :
    nodesOf (depth + 1) (l :: ls) =
      [.choice ((Body.ofLexemes 0 ls).options.map (optionNode (nodesOf depth)))] := by
  rw [nodesOf, Item.ofLexemes_open hTok hne hr, assemble, assemble]

/-! ## Reports -/

/-- The first brace of a run is in its first lexeme or behind it. -/
theorem Lexeme.firstBrace?_cons (l : Lexeme) (ls : List Lexeme) :
    Lexeme.firstBrace? (l :: ls) = (Lexeme.firstBrace? [l]).or (Lexeme.firstBrace? ls) := by
  obtain ⟨t, pos⟩ := l
  cases t with
  | pair c =>
    by_cases hc : c = '{'
    · subst hc
      rfl
    · have hNone : ∀ ms, Lexeme.firstBrace? (⟨.pair c, pos⟩ :: ms) = Lexeme.firstBrace? ms := by
        intro ms
        rw [Lexeme.firstBrace?]
        · simp
        · simpa using hc
      rw [hNone, hNone]
      rfl
  | _ => rfl

/-- A run without a first brace opens nothing. -/
theorem firstBrace?_eq_none {ls : List Lexeme} (h : Lexeme.firstBrace? ls = none) :
    ∀ l ∈ ls, l.token ≠ .opening := by
  induction ls with
  | nil => simp
  | cons l ls ih =>
    have hBoth : l.token ≠ .opening ∧ Lexeme.firstBrace? ls = none := by
      unfold Lexeme.firstBrace? at h
      split at h
      · simp_all
      · simp_all
      · simp_all
      · next hOpen _ heq =>
        obtain ⟨rfl, rfl⟩ := List.cons.inj heq
        exact ⟨fun hTok => hOpen l.pos (by rw [← hTok]), h⟩
    intro x hx
    rcases List.mem_cons.mp hx with rfl | hx
    · exact hBoth.1
    · exact ih hBoth.2 x hx

theorem reportsOf_nil (maxDepth depth : Nat) : reportsOf maxDepth depth [] = [] := by
  cases depth with
  | zero => rfl
  | succ depth => rw [reportsOf, Item.ofLexemes_nil, assembleReports]

/-- An option is trimmed before anything is reported of it. -/
theorem optionReports_reportsOf (maxDepth depth : Nat) (o : List Lexeme) :
    optionReports (reportsOf maxDepth depth) o = reportsOf maxDepth depth (Lexeme.trim o) := by
  rw [optionReports]
  split
  · next hnil => rw [hnil, reportsOf_nil]
  · rfl

/-- What is no opening brace is reported by itself, before the rest. -/
theorem reportsOf_literal (hTok : l.token ≠ .opening) (maxDepth depth : Nat) (ls : List Lexeme) :
    reportsOf maxDepth (depth + 1) (l :: ls) =
      Item.literalReport l ++ reportsOf maxDepth (depth + 1) ls := by
  rw [reportsOf, Item.ofLexemes_cons_of_ne_opening hTok, assembleReports, ← reportsOf]

/-- A brace at the very end is stray. -/
theorem reportsOf_stray (hTok : l.token = .opening) (maxDepth depth : Nat) :
    reportsOf maxDepth (depth + 1) [l] = [.strayOpen l.pos] := by
  rw [reportsOf, Item.ofLexemes_singleton, assembleReports, assembleReports, Item.literalReport,
    hTok]
  rfl

/-- Of a closed choice only what is inside is reported. -/
theorem reportsOf_closed (hTok : l.token = .opening)
    (hr : (Body.ofLexemes 0 ls).rest? = some r) (maxDepth depth : Nat) :
    reportsOf maxDepth (depth + 1) (l :: ls) =
      (Body.ofLexemes 0 ls).options.flatMap (optionReports (reportsOf maxDepth depth)) ++
        reportsOf maxDepth (depth + 1) r := by
  rw [reportsOf, Item.ofLexemes_closed hTok hr, assembleReports, ← reportsOf]
  rfl

/-- A choice that is not closed is reported before what is inside. -/
theorem reportsOf_unclosed (hTok : l.token = .opening) (hne : ls ≠ [])
    (hr : (Body.ofLexemes 0 ls).rest? = none) (maxDepth depth : Nat) :
    reportsOf maxDepth (depth + 1) (l :: ls) =
      .unterminatedChoice l.pos ::
        (Body.ofLexemes 0 ls).options.flatMap (optionReports (reportsOf maxDepth depth)) := by
  rw [reportsOf, Item.ofLexemes_open hTok hne hr, assembleReports, assembleReports,
    List.append_nil]
  rfl

/-- Where no brace closes nothing and none stays open, the only reports are
about the depth limit. -/
theorem isNestingTooDeep_of_closed (maxDepth depth : Nat) (ls : List Lexeme)
    (h : Lexeme.Closed ls) : ∀ d ∈ reportsOf maxDepth depth ls, d.isNestingTooDeep = true := by
  induction depth generalizing ls with
  | zero =>
    intro d hd
    obtain ⟨pos, -, rfl⟩ := List.mem_map.mp hd
    rfl
  | succ depth ihDepth =>
    -- in a closed run no brace is loose and no choice is left open; what remains lies
    -- inside options, and those are closed runs again
    induction ls, h using Lexeme.closed_induction with
    | nil => simp [reportsOf_nil]
    | literal l ls h hRest ho hc hb ih =>
      have hNone : Item.literalReport l = [] := by
        unfold Item.literalReport
        split <;> simp_all
      rw [reportsOf_literal ho, hNone, List.nil_append]
      exact ih
    | choice l ls r h hRest ho hr ih =>
      intro d hd
      rw [reportsOf_closed ho hr, List.mem_append, List.mem_flatMap] at hd
      rcases hd with ⟨o, hMem, hd⟩ | hd
      · rw [optionReports_reportsOf] at hd
        exact ihDepth _ (Body.closed_of_mem_options hr o hMem).trim d hd
      · exact ih d hd

/-! ## Runs that are not too deep -/

/-- A choice needs a level: where nothing is cut any more, no brace may open. -/
theorem exists_depth_of_deep {maxDepth depth : Nat} (hTok : l.token = .opening)
    (hDeep : ∀ d ∈ reportsOf maxDepth depth (l :: ls), d.isNestingTooDeep = false) :
    ∃ d, depth = d + 1 := by
  cases depth with
  | zero =>
    obtain ⟨t, pos⟩ := l
    subst hTok
    have h := hDeep (.nestingTooDeep pos maxDepth) (List.mem_cons_self ..)
    exact absurd h (by simp [Diagnostic.isNestingTooDeep])
  | succ depth => exact ⟨depth, rfl⟩

/-- Where nothing is cut and nothing is too deep, no brace opens at all. -/
theorem ne_opening_of_deep {maxDepth : Nat}
    (hDeep : ∀ d ∈ reportsOf maxDepth 0 ls, d.isNestingTooDeep = false) :
    ∀ l ∈ ls, l.token ≠ .opening := by
  apply firstBrace?_eq_none
  rw [Option.eq_none_iff_forall_ne_some]
  intro pos hPos
  have h := hDeep (.nestingTooDeep pos maxDepth) (by rw [reportsOf, hPos]; exact .head _)
  exact absurd h (by simp [Diagnostic.isNestingTooDeep])

/-- If nothing nests too deep in a run, nothing does behind a literal at its start. -/
theorem deep_of_literal {maxDepth depth : Nat} (hTok : l.token ≠ .opening)
    (hDeep : ∀ d ∈ reportsOf maxDepth depth (l :: ls), d.isNestingTooDeep = false) :
    ∀ d ∈ reportsOf maxDepth depth ls, d.isNestingTooDeep = false := by
  intro d hd
  cases depth with
  | zero =>
    obtain ⟨pos, hPos, rfl⟩ := List.mem_map.mp hd
    rw [Option.mem_toList] at hPos
    -- the brace may be another one with the lexeme in front, but there is one
    have hSome : ∃ p, Lexeme.firstBrace? (l :: ls) = some p := by
      rw [Lexeme.firstBrace?_cons, hPos]
      cases Lexeme.firstBrace? [l] with
      | none => exact ⟨pos, rfl⟩
      | some p => exact ⟨p, rfl⟩
    obtain ⟨p, hp⟩ := hSome
    have h := hDeep (.nestingTooDeep p maxDepth) (by rw [reportsOf, hp]; exact .head _)
    exact absurd h (by simp [Diagnostic.isNestingTooDeep])
  | succ depth =>
    rw [reportsOf_literal hTok] at hDeep
    exact hDeep d (List.mem_append_right _ hd)

end Spintax
