import Spintax.Diagnostic.Highlight
import Spintax.Proofs.DeepBraces
import Spintax.Proofs.LegibleRuns

/-!
# Spintax — what a diagnostic marks

Diagnostics count bytes and marks count characters. Both agree on where a character
is if the bytes in front of it are those of whole characters
(`Text.charsBefore_byteLength`), and so they do for the brace of a diagnostic: whatever
is reported of a run, at whatever depth and after however much trimming, it is a lexeme
of that run, or the brace behind its backslash (`exists_of_mem_reportsOf`), and lexemes
lie one after the other in the text. A brace is a single byte, so the mark that ends
one byte later has a length of one character.

* `Diagnostic.brace`, `Diagnostic.IsAt` — the brace and the lexeme of a diagnostic;
* `exists_of_mem_reportsOf` — what is reported is in the run;
* `Diagnostic.span_of_split` — what a range of bytes is in characters;
* `Diagnostic.span_of_mem_ofText` — a diagnostic of a text marks its brace and nothing
  else.
-/

namespace Spintax

/-! ## Bytes and characters -/

namespace Text

/-- In front of the byte where a beginning of a text ends there are its characters. -/
theorem charsBefore_byteLength (before after : List Char) :
    charsBefore (byteLength before) (before ++ after) = before.length := by
  induction before with
  | nil => cases after <;> simp [charsBefore]
  | cons c before ih =>
    have hSize := c.utf8Size_pos
    have hRest : byteLength (c :: before) - c.utf8Size = byteLength before := by
      rw [byteLength_cons]
      omega
    rw [List.cons_append, charsBefore, if_neg (by rw [byteLength_cons]; omega), hRest, ih,
      List.length_cons]

/-- One byte further is in front of no other character than the one that starts there. -/
theorem charsBefore_byteLength_succ (before after : List Char) (c : Char) :
    charsBefore (byteLength before + 1) (before ++ c :: after) ≤ before.length + 1 := by
  induction before with
  | nil =>
    have hSize := c.utf8Size_pos
    rw [List.nil_append, charsBefore, byteLength_nil, if_neg (by omega),
      show 0 + 1 - c.utf8Size = 0 by omega]
    cases after <;> simp [charsBefore]
  | cons b before ih =>
    have hRest : byteLength (b :: before) + 1 - b.utf8Size = byteLength before + 1 := by
      rw [byteLength_cons]
      omega
    rw [List.cons_append, charsBefore, if_neg (by omega), hRest, List.length_cons]
    omega

end Text

/-! ## The brace of a diagnostic -/

namespace Diagnostic

/-- The brace that a diagnostic is about. -/
def brace : Diagnostic → Char
  | .unmatchedClose _ => '}'
  | _ => '{'

/-- The lexeme that holds the brace of a diagnostic: a closing brace, or one that opens,
which may come after a backslash. -/
def IsAt : Diagnostic → Lexeme → Prop
  | .unmatchedClose pos, l => l.token = .closing ∧ l.pos = pos
  | .unterminatedChoice pos, l => l.brace? = some pos
  | .strayOpen pos, l => l.brace? = some pos
  | .nestingTooDeep pos _, l => l.brace? = some pos

variable {d : Diagnostic} {l : Lexeme}

theorem not_isAt_backslash (hTok : l.token = .backslash) : ¬d.IsAt l := by
  have hNone : l.brace? = none := by rw [Lexeme.brace?, hTok]
  cases d <;> simp [IsAt, hTok, hNone]

/-- What comes before the brace in its lexeme is nothing, or a backslash. -/
theorem IsAt.exists_spelling (h : d.IsAt l) :
    ∃ start, l.spelling = start ++ [d.brace] ∧ d.pos = l.pos + Text.byteLength start := by
  have hOpening : ∀ {pos}, l.brace? = some pos →
      ∃ start, l.spelling = start ++ ['{'] ∧ pos = l.pos + Text.byteLength start := by
    intro pos hBrace
    rcases Lexeme.brace?_eq_some_iff.mp hBrace with ⟨hTok, rfl⟩ | ⟨hTok, rfl⟩
    · exact ⟨[], Lexeme.spelling_of_token hTok, rfl⟩
    · exact ⟨['\\'], Lexeme.spelling_of_token hTok, rfl⟩
  cases d with
  | unmatchedClose pos => exact ⟨[], Lexeme.spelling_of_token h.1, h.2.symm⟩
  | unterminatedChoice pos => exact hOpening h
  | strayOpen pos => exact hOpening h
  | nestingTooDeep pos maxDepth => exact hOpening h

end Diagnostic

/-! ## What is reported of a run -/

/-- The first brace of a run is in one of its lexemes. -/
theorem Lexeme.exists_of_firstBrace? {ls : List Lexeme} {pos : Nat}
    (h : firstBrace? ls = some pos) : ∃ l ∈ ls, l.brace? = some pos := by
  induction ls with
  | nil => exact absurd h nofun
  | cons l ls ih =>
    rw [firstBrace?_eq_or, Option.or_eq_some_iff] at h
    rcases h with hHere | ⟨-, hRest⟩
    · exact ⟨l, List.mem_cons_self, hHere⟩
    · obtain ⟨m, hm, hBrace⟩ := ih hRest
      exact ⟨m, List.mem_cons_of_mem l hm, hBrace⟩

variable {d : Diagnostic}

/-- What is reported of a literal is about this literal. -/
theorem Item.isAt_of_mem_literalReport {l : Lexeme} (h : d ∈ literalReport l) : d.IsAt l := by
  unfold literalReport at h
  split at h
  · next hTok =>
    rw [List.mem_singleton.mp h]
    exact Lexeme.brace?_eq_some_iff.mpr (.inl ⟨hTok, rfl⟩)
  · next hTok =>
    rw [List.mem_singleton.mp h]
    exact ⟨hTok, rfl⟩
  · exact absurd h List.not_mem_nil

/-- **What is reported of a run is about a lexeme of the run.** -/
theorem exists_of_mem_reportsOf {maxDepth depth : Nat} {ls : List Lexeme}
    (h : d ∈ reportsOf maxDepth depth ls) : ∃ l ∈ ls, d.IsAt l := by
  induction depth generalizing ls with
  | zero =>
    obtain ⟨pos, hPos, rfl⟩ := List.mem_map.mp h
    exact Lexeme.exists_of_firstBrace? (Option.mem_toList.mp hPos)
  | succ depth ihDepth =>
    -- the options are parts of the run, and trimming adds no lexeme with a brace
    have hOptions : ∀ {l : Lexeme} {ls : List Lexeme},
        d ∈ (Body.ofLexemes 0 ls).options.flatMap (optionReports (reportsOf maxDepth depth)) →
          ∃ m ∈ l :: ls, d.IsAt m := by
      intro l ls hMem
      obtain ⟨o, ho, hOption⟩ := List.mem_flatMap.mp hMem
      rw [optionReports_reportsOf] at hOption
      obtain ⟨m, hm, hAt⟩ := ihDepth hOption
      have hKept : m ∈ o :=
        (Lexeme.mem_trim hm).resolve_right fun hCut => Diagnostic.not_isAt_backslash hCut.1 hAt
      exact ⟨m, List.mem_cons_of_mem l ((Body.infix_of_mem_options ho).subset hKept), hAt⟩
    induction ls using Lexeme.run_induction with
    | nil =>
      rw [reportsOf_nil] at h
      exact absurd h List.not_mem_nil
    | literal l ls hTok ih =>
      rw [reportsOf_literal hTok, List.mem_append] at h
      rcases h with hHere | hRest
      · exact ⟨l, List.mem_cons_self, Item.isAt_of_mem_literalReport hHere⟩
      · obtain ⟨m, hm, hAt⟩ := ih hRest
        exact ⟨m, List.mem_cons_of_mem l hm, hAt⟩
    | stray l hTok =>
      rw [reportsOf_stray hTok, List.mem_singleton] at h
      refine ⟨l, List.mem_cons_self, ?_⟩
      rw [h]
      exact Lexeme.brace?_eq_some_iff.mpr (.inl ⟨hTok, rfl⟩)
    | closed l ls r hTok hr ih =>
      rw [reportsOf_closed hTok hr, List.mem_append] at h
      rcases h with hInside | hRest
      · exact hOptions hInside
      · obtain ⟨m, hm, hAt⟩ := ih hRest
        exact ⟨m, (Body.suffix_cons_of_rest hr l).subset hm, hAt⟩
    | unclosed l ls hTok hne hr =>
      rw [reportsOf_unclosed hTok hne hr, List.mem_cons] at h
      rcases h with hHere | hInside
      · refine ⟨l, List.mem_cons_self, ?_⟩
        rw [hHere]
        exact Lexeme.brace?_eq_some_iff.mpr (.inl ⟨hTok, rfl⟩)
      · exact hOptions hInside

/-! ## Marks -/

namespace Diagnostic

/-- A diagnostic at a byte where a character starts marks this character. -/
theorem span_of_split {before after : List Char} {c : Char}
    (hPos : d.pos = Text.byteLength before) :
    d.span (before ++ c :: after) = (before.length, before.length + 1) := by
  have hEnd := Text.charsBefore_byteLength_succ before after c
  rw [span, hPos, Text.charsBefore_byteLength, Nat.max_eq_right hEnd]

/-- A diagnostic of a text stands where its brace starts. -/
theorem exists_split_of_mem_reportsOf {maxDepth depth : Nat} {s : List Char}
    (h : d ∈ reportsOf maxDepth depth (Lexeme.ofText s)) :
    ∃ before after, s = before ++ d.brace :: after ∧ d.pos = Text.byteLength before := by
  obtain ⟨l, hl, hAt⟩ := exists_of_mem_reportsOf h
  obtain ⟨front, back, hSplit⟩ := List.append_of_mem hl
  obtain ⟨start, hSpelling, hPos⟩ := hAt.exists_spelling
  refine ⟨Lexeme.spellAll front ++ start, Lexeme.spellAll back, ?_, ?_⟩
  · rw [← Lexeme.spellAll_ofText s, hSplit, Lexeme.spellAll_append, Lexeme.spellAll_cons,
      hSpelling]
    simp
  · rw [hPos, Lexeme.pos_of_place hSplit, Text.byteLength_append, Nat.zero_add]

/-- **A diagnostic of a text marks its brace and nothing else**: one character of the
normal text, which is a closing brace where there is no choice to close and an opening
brace otherwise. It is the character that starts at the byte that the diagnostic names,
however many bytes the characters in front of it have. -/
theorem span_of_mem_ofText (maxDepth : Nat) (s : List Char) :
    ∀ d ∈ (Reading.ofText maxDepth s).diagnostics,
      ∃ start, d.span (Text.normalize s) = (start, start + 1) ∧
        start + 1 ≤ (Text.normalize s).length ∧
        (Text.normalize s)[start]? = some d.brace ∧
        Text.byteLength ((Text.normalize s).take start) = d.pos := by
  intro d hMem
  obtain ⟨before, after, hSplit, hPos⟩ := exists_split_of_mem_reportsOf hMem
  rw [hSplit]
  refine ⟨before.length, span_of_split hPos, ?_, ?_, ?_⟩
  · rw [List.length_append, List.length_cons]
    omega
  · rw [List.getElem?_append_right (Nat.le_refl _), Nat.sub_self]
    rfl
  · rw [List.take_left, hPos]

/-- Behind two letters of two bytes each, the brace that is too deep is marked where it
stands and not two characters later. -/
theorem span_of_mem_ofText_too_deep :
    let s := ['é', '}', 'ü', '{', 'a', '{', 'b']
    (Reading.ofText 1 s).diagnostics =
        [.unmatchedClose 2, .unterminatedChoice 5, .nestingTooDeep 7 1] ∧
      ∃ start, (nestingTooDeep 7 1).span (Text.normalize s) = (start, start + 1) ∧
        start + 1 ≤ (Text.normalize s).length ∧ (Text.normalize s)[start]? = some '{' ∧
        Text.byteLength ((Text.normalize s).take start) = 7 := by
  intro s
  have hReports : (Reading.ofText 1 s).diagnostics =
      [.unmatchedClose 2, .unterminatedChoice 5, .nestingTooDeep 7 1] := by decide +kernel
  refine ⟨hReports, span_of_mem_ofText 1 s (.nestingTooDeep 7 1) ?_⟩
  rw [hReports]
  simp

end Diagnostic

end Spintax
