import Spintax.Proofs.Depth
import Spintax.Proofs.RoundTrip

/-!
# Spintax — texts that settle at once

A text is read and written back; when is its tree read back from that? The text
has to be whole, so that no pair is cut, and it must not both leave a choice
open and end with a brace that opens, for that brace would then stand inside
the choice. Nothing need be assumed of the second reading: the text that comes
back has the same braces at the same depths, and closing ones after them.

* `deep_rewritten` — the text that comes back nests no deeper;
* `strayOpen_mem_ofText` — a brace that ends the text is reported;
* `root_ofText_rewritten_of_isWhole` — the first tree is read back.
-/

namespace Spintax

/-! ## The depth of the text that comes back -/

namespace Token

/-- No blank is a brace or a bar. -/
theorem isBlank_ofChar (c : Char) : (ofChar c).isBlank = Text.isBlank c := by
  unfold ofChar
  split
  · next h => rw [h]; decide
  split
  · next h => rw [h]; decide
  split
  · next h => rw [h]; decide
  · rfl

/-- Closing braces fit anywhere, as they have nothing to open. -/
theorem fits_replicate_closing (limit level n : Nat) :
    Fits limit level (List.replicate n .closing) := by
  induction n generalizing level with
  | zero => trivial
  | succ n ih =>
    rw [List.replicate_succ, fits_cons]
    exact ⟨by simp [hasBrace], ih _⟩

/-- A text of closing braces is cut into these. -/
theorem ofText_replicate_closing (n : Nat) :
    ofText (List.replicate n '}') = List.replicate n .closing := by
  induction n with
  | zero => rfl
  | succ n ih =>
    rw [List.replicate_succ, List.replicate_succ, ofText_cons_of_ne (by decide), ih]
    rfl

/-- Leaving out blanks of a whole text takes no brace and moves none. -/
theorem fits_of_thinned {s t : List Char} (h : Text.Thinned s t) (hWhole : Text.isWhole s = true)
    {limit level : Nat} (hFits : Fits limit level (ofText s)) : Fits limit level (ofText t) := by
  unfold Text.isWhole at hWhole
  induction s using ofText_induction generalizing t level with
  | nil =>
    cases h
    trivial
  | lone => exact absurd hWhole (by decide)
  | pair c s ih =>
    rw [ofText_pair, List.all_cons, Bool.and_eq_true] at hWhole
    rw [ofText_pair, fits_cons] at hFits
    have hc : Text.isBlank c = false := by simpa [isWhole] using hWhole.1
    -- neither character of the pair is a blank, so it stays a pair
    cases h with
    | leave hBlank _ => exact absurd hBlank (by decide)
    | keep _ h =>
      cases h with
      | leave hBlank _ => exact absurd hBlank (by simp [hc])
      | keep _ h =>
        rw [ofText_pair, fits_cons]
        exact ⟨hFits.1, ih h hWhole.2 hFits.2⟩
  | char c s hc ih =>
    rw [ofText_cons_of_ne hc, List.all_cons, Bool.and_eq_true] at hWhole
    rw [ofText_cons_of_ne hc, fits_cons] at hFits
    cases h with
    | keep _ h =>
      rw [ofText_cons_of_ne hc, fits_cons]
      exact ⟨hFits.1, ih h hWhole.2 hFits.2⟩
    | leave hBlank h =>
      -- a blank is no brace, so as many braces are open without it
      rw [(openAfter_of_isBlank ((isBlank_ofChar c).trans hBlank) level).2] at hFits
      exact ih h hWhole.2 hFits.2

end Token

/-- **The text that comes back from a whole text nests no deeper.** -/
theorem deep_rewritten {maxDepth : Nat} {s : List Char}
    (hWhole : Text.isWhole (Text.normalize s) = true)
    (hDeep : ∀ d ∈ (Reading.ofText maxDepth s).diagnostics, d.isNestingTooDeep = false) :
    ∀ d ∈ (Reading.ofText maxDepth (rewritten maxDepth s)).diagnostics,
      d.isNestingTooDeep = false := by
  have hTokens : ∀ t, (Lexeme.ofText t).map Lexeme.token = Token.ofText t := fun t =>
    Lexeme.map_token_place 0 _
  have hFits := deep_iff_fits.mp hDeep
  rw [hTokens] at hFits
  refine deep_iff_fits.mpr ?_
  rw [hTokens, normalize_rewritten]
  -- closing braces at the end are written inside nothing that opens
  refine Token.fits_of_thinned (thinned_rewritten maxDepth s)
    (Text.isWhole_append hWhole (Text.isWhole_replicate _)) ?_
  rw [Token.ofText_append (Text.backslash_not_mem_of_isWhole hWhole),
    Token.ofText_replicate_closing, Token.fits_append]
  exact ⟨hFits, Token.fits_replicate_closing ..⟩

/-! ## A brace that ends the text -/

/-- A brace that opens at the very end is stray, also inside open choices. -/
theorem strayOpen_mem_ofText {maxDepth : Nat} {s : List Char} {l : Lexeme}
    (hLast : (Lexeme.ofText (Text.normalize s)).getLast? = some l) (hTok : l.token = .opening)
    (hDeep : ∀ d ∈ (Reading.ofText maxDepth s).diagnostics, d.isNestingTooDeep = false) :
    .strayOpen l.pos ∈ (Reading.ofText maxDepth s).diagnostics := by
  obtain ⟨xs, hLexemes⟩ := List.getLast?_eq_some_iff.mp hLast
  have hDepth : maxDepth ≠ 0 := by
    rintro rfl
    exact ne_opening_of_deep hDeep l (by rw [hLexemes]; simp) hTok
  have hEnds := Lexeme.endsAt_ofText (Text.normalize s)
  have hTrim := Lexeme.trimEnd_ofText (Text.endsBlank_normalize s)
  have hReports := reportsOf_eq_diagnostics maxDepth (Lexeme.ofText (Text.normalize s)) []
    hEnds hTrim hDeep (fun h => absurd h hDepth)
  have hOpen : Matching.openReport (Text.byteLength (Text.normalize s)) l.pos =
      .strayOpen l.pos := by
    have hSuffix : [l] <:+ Lexeme.ofText (Text.normalize s) := hLexemes ▸ List.suffix_append xs [l]
    have hReport := (hEnds.of_suffix hSuffix).openReport_eq hTok
    rwa [if_pos rfl] at hReport
  -- matching has the brace on top of the open ones at the end
  show _ ∈ reportsOf maxDepth maxDepth (Lexeme.ofText (Text.normalize s))
  rw [List.reverse_nil, List.map_nil, List.nil_append] at hReports
  rw [← hReports, hLexemes, List.foldl_append, List.foldl_cons, List.foldl_nil, Matching.step, hTok,
    Matching.diagnostics]
  refine List.mem_append_right _ (List.mem_map.mpr ⟨l.pos, ?_, hOpen⟩)
  simp

/-! ## Texts -/

/-- **The first tree of a whole text is read back**, if the text does not both
leave a choice open and end with a stray brace; so what comes back from the text
comes back unchanged. -/
theorem root_ofText_rewritten_of_isWhole {maxDepth : Nat} {s : List Char}
    (hWhole : Text.isWhole (Text.normalize s) = true)
    (hDeep : ∀ d ∈ (Reading.ofText maxDepth s).diagnostics, d.isNestingTooDeep = false)
    (hOne : ¬ ((∃ p, .unterminatedChoice p ∈ (Reading.ofText maxDepth s).diagnostics) ∧
      ∃ q, .strayOpen q ∈ (Reading.ofText maxDepth s).diagnostics)) :
    (Reading.ofText maxDepth (rewritten maxDepth s)).root = (Reading.ofText maxDepth s).root ∧
      rewritten maxDepth (rewritten maxDepth s) = rewritten maxDepth s := by
  have hEnd : EndsWhole false (Reading.ofText maxDepth s).diagnostics
      (Lexeme.ofText (Text.normalize s)) := by
    by_cases hNone : unterminated (Reading.ofText maxDepth s).diagnostics = 0
    · exact .inl ⟨rfl, hNone⟩
    · -- a choice is left open, so no brace is stray
      obtain ⟨d, hMem, hd⟩ := List.countP_pos_iff.mp (Nat.pos_of_ne_zero hNone)
      refine .inr fun l hLast hTok => hOne ⟨⟨d.pos, ?_⟩, l.pos, ?_⟩
      · cases d <;> simp_all [Diagnostic.isUnterminatedChoice, Diagnostic.pos]
      · exact strayOpen_mem_ofText hLast hTok hDeep
  have hLegible : (Reading.ofText maxDepth s).root.isLegible false = true :=
    isLegibleAll_of_isWhole (Lexeme.recut_ofText _) (isWhole_of_mem_ofText hWhole)
      (Lexeme.trimEnd_ofText (Text.endsBlank_normalize s)) hDeep (by simp) hEnd
  -- a whole text is read into a legible tree, and legible trees are read back
  have hBack := root_ofText_rewritten hDeep (deep_rewritten hWhole hDeep) hLegible
  exact ⟨hBack, congrArg Node.source hBack⟩

/-- A loose brace stays at the root, and both choices are closed at the end. -/
theorem root_ofText_rewritten_of_open :
    (Reading.ofText 128 ['}', '{', 'a', '|', '{', 'b', '}', '}']).root =
      .root [.text ['}'],
        .choice [.option ['a'] [], .option [] [.choice [.option ['b'] []]]]] := by
  have hReports : (Reading.ofText 128 ['}', '{', 'a', '|', ' ', '{', 'b', ' ']).diagnostics =
      [.unmatchedClose 0, .unterminatedChoice 1, .unterminatedChoice 5] := by decide +kernel
  have hBack := @root_ofText_rewritten_of_isWhole 128 ['}', '{', 'a', '|', ' ', '{', 'b', ' ']
    (by decide +kernel) (by simp [hReports, Diagnostic.isNestingTooDeep]) (by simp [hReports])
  have hText : rewritten 128 ['}', '{', 'a', '|', ' ', '{', 'b', ' '] =
      ['}', '{', 'a', '|', '{', 'b', '}', '}'] := by decide +kernel
  have hFirst : (Reading.ofText 128 ['}', '{', 'a', '|', ' ', '{', 'b', ' ']).root =
      .root [.text ['}'],
        .choice [.option ['a'] [], .option [] [.choice [.option ['b'] []]]]] := by decide +kernel
  rw [hText] at hBack
  exact hBack.1.trans hFirst

end Spintax
