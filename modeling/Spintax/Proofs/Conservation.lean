import Mathlib.Algebra.GroupWithZero.Nat
import Spintax.Node.Source
import Spintax.Proofs.Runs
import Spintax.Proofs.Thinned

/-!
# Spintax — reading keeps the text

Whatever reading repairs or keeps as it stands, the source of the tree is the
normal text with some blanks left out and, at its end, one closing brace for
each choice that was not closed.

The closing braces end up together at the end because only the last option of a
choice can hold an open one: the others are closed runs, and those are read
without such a repair (`unterminated_of_closed`).

Main results:

* `thinned_optionOf` — making an option of a sequence leaves out blanks only;
* `thinned_nodesOf` — the source of a run, at any depth;
* `source_ofText_thinned` — the source of a text.
-/

namespace Spintax

/-- Whether the report is about a choice that is not closed. -/
def Diagnostic.isUnterminatedChoice : Diagnostic → Bool
  | .unterminatedChoice _ => true
  | _ => false

/-- How many choices were not closed. -/
def unterminated (ds : List Diagnostic) : Nat :=
  ds.countP Diagnostic.isUnterminatedChoice

open Text (Thinned)

/-! ## Sequences -/

theorem Node.flatMap_source_consText (s : List Char) (ns : List Node) :
    (Node.consText s ns).flatMap Node.source = s ++ ns.flatMap Node.source := by
  unfold Node.consText
  split <;> simp

/-- Dropping texts of blanks leaves out blanks only. -/
theorem Node.thinned_filter_isBlankText (ns : List Node) :
    Thinned (ns.flatMap Node.source)
      ((ns.filter fun n => !n.isBlankText).flatMap Node.source) := by
  induction ns with
  | nil => exact .nil
  | cons n ns ih =>
    rw [List.flatMap_cons, List.filter_cons]
    split
    · rw [List.flatMap_cons]
      exact (Thinned.refl _).append ih
    · next hBlank =>
      -- what is left out is a text of blanks
      have hText : Thinned n.source [] := by
        cases n with
        | text s => exact Thinned.of_allBlank (by simpa [Node.isBlankText] using hBlank)
        | _ => simp [Node.isBlankText] at hBlank
      exact hText.append ih

/-- Simplifying an option leaves out blanks only. -/
theorem Node.thinned_simplifyOption (s : List Char) (ns : List Node) :
    Thinned (s ++ ns.flatMap Node.source) (Node.simplifyOption s ns).source := by
  unfold Node.simplifyOption
  split
  · next t =>
    simpa [Node.source_option] using Text.thinned_trim t
  · simpa [Node.source_option] using Text.thinned_trim s
  · rw [Node.source_option]
    exact Thinned.refl _

/-- Making an option of a sequence leaves out nothing but blanks. -/
theorem Node.thinned_optionOf (ns : List Node) :
    Thinned (ns.flatMap Node.source) (Node.optionOf ns).source := by
  unfold Node.optionOf
  split
  · next s ns =>
    have hFilter := (Thinned.refl s).append (Node.thinned_filter_isBlankText ns)
    exact hFilter.trans (Node.thinned_simplifyOption s _)
  · exact (Node.thinned_filter_isBlankText _).trans (Node.thinned_simplifyOption [] _)

/-! ## Runs -/

theorem unterminated_append (ds es : List Diagnostic) :
    unterminated (ds ++ es) = unterminated ds + unterminated es :=
  List.countP_append

/-- At the depth limit no choice is read, and so none is left open. -/
theorem unterminated_zero (maxDepth : Nat) (ls : List Lexeme) :
    unterminated (reportsOf maxDepth 0 ls) = 0 := by
  rw [unterminated, List.countP_eq_zero]
  intro d hd
  obtain ⟨pos, -, rfl⟩ := List.mem_map.mp hd
  simp [Diagnostic.isUnterminatedChoice]

/-- Only an opening brace can begin a choice that is left open. -/
theorem unterminated_literal {l : Lexeme} (hTok : l.token ≠ .opening) (maxDepth depth : Nat)
    (ls : List Lexeme) :
    unterminated (reportsOf maxDepth depth (l :: ls)) =
      unterminated (reportsOf maxDepth depth ls) := by
  cases depth with
  | zero => rw [unterminated_zero, unterminated_zero]
  | succ depth =>
    have hNone : unterminated (Item.literalReport l) = 0 := by
      unfold Item.literalReport
      split <;> rfl
    rw [reportsOf_literal hTok, unterminated_append, hNone, Nat.zero_add]

/-- A closed run leaves no choice open. -/
theorem unterminated_of_closed (maxDepth depth : Nat) {ls : List Lexeme} (h : Lexeme.Closed ls) :
    unterminated (reportsOf maxDepth depth ls) = 0 := by
  rw [unterminated, List.countP_eq_zero]
  intro d hd
  have hDeep := isNestingTooDeep_of_closed maxDepth depth ls h d hd
  cases d <;> simp_all [Diagnostic.isNestingTooDeep, Diagnostic.isUnterminatedChoice]

theorem unterminated_option_of_closed (maxDepth depth : Nat) (o : List Lexeme)
    (ho : Lexeme.Closed o) : unterminated (optionReports (reportsOf maxDepth depth) o) = 0 := by
  rw [optionReports_reportsOf]
  exact unterminated_of_closed maxDepth depth ho.trim

/-- What stands inside the braces of a choice, if each option `o` is written as
`f o` and keeps its own text up to the `u o` braces that it lacks. -/
theorem thinned_options {u : List Lexeme → Nat} {f : List Lexeme → List Char}
    (hOption : ∀ o, Thinned (Lexeme.spellAll o ++ List.replicate (u o) '}') (f o))
    (hClosed : ∀ o, Lexeme.Closed o → u o = 0) (ls : List Lexeme) :
    Thinned
      (Lexeme.spellAll ls ++ List.replicate (((Body.ofLexemes 0 ls).options.map u).sum +
        if (Body.ofLexemes 0 ls).rest?.isSome then 0 else 1) '}')
      (['|'].intercalate ((Body.ofLexemes 0 ls).options.map f) ++
        '}' :: Lexeme.spellAll (Body.ofLexemes 0 ls).rest) := by
  induction ls using Body.cut_induction with
  | last o k hk =>
    -- the brace that the choice itself lacks comes after those of its last option
    have h := (hOption o).append (Thinned.refl ['}'])
    rw [List.append_assoc, ← List.replicate_succ'] at h
    simpa [Body.options, Body.rest, Lexeme.spellAll] using h
  | close o l r ho hTok =>
    have hl : l.spelling = ['}'] := Lexeme.spelling_of_token hTok
    -- an option before the end lacks no brace
    have h := (hOption o).append (Thinned.refl ('}' :: Lexeme.spellAll r))
    rw [hClosed o ho] at h
    simpa [Body.options, Body.rest, Lexeme.spellAll, hl, hClosed o ho] using h
  | next o l r ho hTok ih =>
    have hl : l.spelling = ['|'] := Lexeme.spelling_of_token hTok
    have h := (hOption o).append (Thinned.keep '|' ih)
    rw [hClosed o ho] at h
    simpa [Body.options, Body.rest, Lexeme.spellAll, hl, hClosed o ho, List.intercalate] using h

/-- A choice, with what follows it as it was. -/
theorem thinned_choice {u : List Lexeme → Nat} {f : List Lexeme → Node}
    (hOption : ∀ o, Thinned (Lexeme.spellAll o ++ List.replicate (u o) '}') (f o).source)
    (hClosed : ∀ o, Lexeme.Closed o → u o = 0) (l : Lexeme) (ls : List Lexeme)
    (hTok : l.token = .opening) :
    Thinned
      (Lexeme.spellAll (l :: ls) ++ List.replicate (((Body.ofLexemes 0 ls).options.map u).sum +
        if (Body.ofLexemes 0 ls).rest?.isSome then 0 else 1) '}')
      ((Node.choice ((Body.ofLexemes 0 ls).options.map f)).source ++
        Lexeme.spellAll (Body.ofLexemes 0 ls).rest) := by
  have hl : l.spelling = ['{'] := Lexeme.spelling_of_token hTok
  have h := Thinned.keep '{' (thinned_options hOption hClosed ls)
  rw [Lexeme.spellAll_cons, hl, Node.source_choice, List.map_map]
  simpa [Function.comp_def] using h

/-- An option: it is trimmed, read one level deeper, and put into form. -/
theorem thinned_optionNode (maxDepth depth : Nat)
    (hNodes : ∀ ls, Thinned
      (Lexeme.spellAll ls ++ List.replicate (unterminated (reportsOf maxDepth depth ls)) '}')
      ((nodesOf depth ls).flatMap Node.source))
    (o : List Lexeme) :
    Thinned
      (Lexeme.spellAll o ++
        List.replicate (unterminated (optionReports (reportsOf maxDepth depth) o)) '}')
      (optionNode (nodesOf depth) o).source := by
  rw [optionReports_reportsOf, optionNode_nodesOf]
  -- trimmed first, then read, then put into form: each leaves out blanks only
  have hTrim := (Text.thinned_trim (Lexeme.spellAll o)).append (Thinned.refl
    (List.replicate (unterminated (reportsOf maxDepth depth (Lexeme.trim o))) '}'))
  rw [← Lexeme.spellAll_trim] at hTrim
  exact (hTrim.trans (hNodes _)).trans (Node.thinned_optionOf _)

/-- A run keeps its text, and the braces that its choices lack follow it. -/
theorem thinned_nodesOf (maxDepth depth : Nat) (ls : List Lexeme) :
    Thinned
      (Lexeme.spellAll ls ++ List.replicate (unterminated (reportsOf maxDepth depth ls)) '}')
      ((nodesOf depth ls).flatMap Node.source) := by
  induction depth generalizing ls with
  | zero =>
    rw [unterminated_zero, nodesOf, Node.flatMap_source_consText]
    exact Thinned.refl _
  | succ depth ihDepth =>
    -- the induction on the depth settles the options, the one on the run what follows
    have hChoice := @thinned_choice _ _ (thinned_optionNode maxDepth depth ihDepth)
      (unterminated_option_of_closed maxDepth depth)
    have hSum : ∀ os : List (List Lexeme),
        unterminated (os.flatMap (optionReports (reportsOf maxDepth depth))) =
          (os.map fun o => unterminated (optionReports (reportsOf maxDepth depth) o)).sum := by
      intro os
      rw [unterminated, List.countP_flatMap]
      rfl
    induction ls using Lexeme.run_induction with
    | nil => rw [reportsOf_nil, nodesOf_nil]; exact .nil
    | literal l ls hTok ih =>
      rw [unterminated_literal hTok, nodesOf_literal hTok, Node.flatMap_source_consText,
        Lexeme.spellAll_cons, List.append_assoc]
      exact (Thinned.refl _).append ih
    | stray l hTok =>
      rw [reportsOf_stray hTok, nodesOf_singleton]
      simpa [unterminated, Diagnostic.isUnterminatedChoice, Lexeme.spellAll] using
        Thinned.refl l.spelling
    | closed l ls r hTok hr ih =>
      have hChoice := hChoice l ls hTok
      simp only [Body.rest, hr, Option.isSome_some, if_true, Nat.add_zero, Option.getD_some]
        at hChoice
      -- the braces that are lacking are those of the rest, and they stay behind it
      have h := hChoice.append (Thinned.refl
        (List.replicate (unterminated (reportsOf maxDepth (depth + 1) r)) '}'))
      rw [List.append_assoc, List.replicate_append_replicate, List.append_assoc] at h
      rw [reportsOf_closed hTok hr, unterminated_append, hSum, nodesOf_closed hTok hr,
        List.flatMap_cons]
      exact h.trans ((Thinned.refl _).append ih)
    | unclosed l ls hTok hne hr =>
      have hChoice := hChoice l ls hTok
      simp only [Body.rest, hr, Option.isSome_none, Bool.false_eq_true, if_false,
        Option.getD_none] at hChoice
      -- the choice is the whole rest of the run and lacks one brace itself
      have hCount : unterminated (reportsOf maxDepth (depth + 1) (l :: ls)) =
          ((Body.ofLexemes 0 ls).options.map fun o =>
            unterminated (optionReports (reportsOf maxDepth depth) o)).sum + 1 := by
        rw [reportsOf_unclosed hTok hne hr, ← hSum]
        exact List.countP_cons_of_pos rfl
      rw [hCount, nodesOf_unclosed hTok hne hr, List.flatMap_singleton]
      simpa [Lexeme.spellAll] using hChoice

/-! ## Texts -/

/-- **Reading keeps the text.** The text that is read is the normal form of the
one that is given. The source of the tree is this normal form, followed by a
closing brace for each choice that was not closed, without some of its blanks;
nothing else is lost, added, repeated or moved. -/
theorem source_ofText_thinned (maxDepth : Nat) (s : List Char) :
    (Reading.ofText maxDepth s).normal = Text.normalize s ∧
      Thinned
        (Text.normalize s ++
          List.replicate (unterminated (Reading.ofText maxDepth s).diagnostics) '}')
        (Reading.ofText maxDepth s).root.source := by
  refine ⟨rfl, ?_⟩
  have h := thinned_nodesOf maxDepth maxDepth (Lexeme.ofText (Text.normalize s))
  rw [Lexeme.spellAll_ofText] at h
  rw [Reading.ofText, Reading.ofNormal, Node.source_root]
  exact h

end Spintax
