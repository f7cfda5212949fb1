import Spintax.Proofs.Listing
import Spintax.Proofs.Meaning

/-!
# Spintax — trees of plain text

A tree that was edited need not be tidy: texts stand side by side, are empty or
blank, and a choice may have no options. Its source is read as another tree then.
But as long as no literal holds a character that is read as more than itself,
there is nothing to repair, and the renderings are the same, one by one, but for
blanks. The two trees are not compared node by node for this: both say what the
source says.

Without any blanks the renderings are the very same. What is read has no blanks
either then, because a rendering is part of the source (`Node.Walk.sublist_source`)
and the source that is read keeps to the text.

* `diagnostics_eq_nil_of_nested` — texts that are read without a report;
* `Node.mem_source`, `Node.Walk.sublist_source` — what stands in a source;
* `renderings_ofText_source` — what is written and read again.
-/

namespace Spintax

/-! ## Texts without a report -/

namespace Token

open Text (Thinned)

/-- Blanks open and close nothing. -/
theorem foldlM_levelAfter_thinned {s t : List Char} (h : Thinned s t) (level : Nat) :
    (t.map ofChar).foldlM levelAfter level = (s.map ofChar).foldlM levelAfter level := by
  induction h generalizing level with
  | nil => rfl
  | keep c _ ih =>
    rw [List.map_cons, List.map_cons, List.foldlM_cons, List.foldlM_cons]
    exact congrArg _ (funext ih)
  | leave hBlank _ ih =>
    rw [ih, List.map_cons, ofChar_of_isBlank hBlank]
    rfl

/-- The tokens of a text fit with its blanks exactly if they fit without them. -/
theorem fits_thinned {s t : List Char} (h : Thinned s t) (limit level : Nat) :
    Fits limit level (t.map ofChar) ↔ Fits limit level (s.map ofChar) := by
  induction h generalizing level with
  | nil => exact Iff.rfl
  | keep c _ ih => rw [List.map_cons, List.map_cons, fits_cons, fits_cons, ih]
  | leave hBlank _ ih =>
    rw [ih, List.map_cons, ofChar_of_isBlank hBlank, fits_cons]
    simp [hasBrace, openAfter]

/-- Nor do blanks make a difference to what stays inside an option. -/
theorem nested_thinned {s t : List Char} (h : Thinned s t) {limit level : Nat} :
    Nested limit level (t.map ofChar) ↔ Nested limit level (s.map ofChar) := by
  constructor
  · rintro ⟨hClosed, hFits⟩
    exact ⟨(foldlM_levelAfter_thinned h level).symm.trans hClosed, (fits_thinned h ..).mp hFits⟩
  · rintro ⟨hClosed, hFits⟩
    exact ⟨(foldlM_levelAfter_thinned h level).trans hClosed, (fits_thinned h ..).mpr hFits⟩

/-- Plain text needs no room for braces. -/
theorem Nested.of_plain {s : List Char} (h : Text.Plain s) (limit level : Nat) :
    Nested limit level (s.map ofChar) := by
  induction s with
  | nil => exact .nil
  | cons c s ih =>
    obtain ⟨hc, hs⟩ := List.forall_mem_cons.mp h
    rw [List.map_cons, ofChar_eq_plain hc, ← List.singleton_append]
    exact Nested.append ⟨rfl, by simp [Fits, hasBrace]⟩ (ih hs)

end Token

/-- A plain text has no brace at all, so it is balanced without any room. -/
theorem Text.Balanced.of_plain {s : List Char} (h : Text.Plain s) : Text.Balanced 0 s := by
  have hTokens := Token.ofText_eq_map h.backslash_not_mem
  constructor
  · intro limit _
    rw [hTokens]
    exact .of_plain h limit 0
  · rw [hTokens, List.mem_map]
    rintro ⟨c, -, hc⟩
    exact Token.ofChar_ne_backslash c hc

/-- A text without backslashes that closes what it opens is read without a
report, at the depth limit zero as well. -/
theorem diagnostics_eq_nil_of_nested {maxDepth : Nat} {s : List Char} (hBackslash : '\\' ∉ s)
    (hNested : Token.Nested maxDepth 0 (Token.ofText s)) :
    (Reading.ofText maxDepth s).diagnostics = [] := by
  have hNormal : Token.ofText (Text.normalize s) = (Text.normalize s).map Token.ofChar :=
    Token.ofText_eq_map fun h => hBackslash (Text.mem_normalize h (by decide))
  have hTokens : Token.Nested maxDepth 0 (Token.ofText (Text.normalize s)) := by
    rw [Token.ofText_eq_map hBackslash, ← Token.nested_thinned (Text.thinned_letters s),
      ← Text.letters_normalize, Token.nested_thinned (Text.thinned_letters _)] at hNested
    rwa [hNormal]
  cases maxDepth with
  | zero =>
    have hNone : Lexeme.firstBrace? (Lexeme.ofText (Text.normalize s)) = none := by
      rw [firstBrace?_eq_none_iff, Lexeme.ofText, Lexeme.map_token_place]
      exact Token.fits_zero.mp hTokens.fits
    show (Option.toList _).map _ = []
    rw [hNone]
    rfl
  | succ depth =>
    have hReports := diagnostics_eq_nil_of_settled (Text.normalize_normalize s) (Nat.succ_pos depth)
      hTokens.settled
    rwa [Reading.ofText, Text.normalize_normalize] at hReports

/-! ## Written and read again -/

namespace Node

/-- With bars between texts, a character is a bar or one of the texts'. -/
theorem mem_intercalate {ss : List (List Char)} {c : Char} (h : c ∈ ['|'].intercalate ss) :
    c = '|' ∨ ∃ s ∈ ss, c ∈ s := by
  induction ss using Text.bars_induction with
  | nil => exact absurd h List.not_mem_nil
  | last s => exact .inr ⟨s, List.mem_cons_self, h⟩
  | bar s ss ih =>
    rw [List.mem_append, List.mem_cons] at h
    rcases h with h | h | h
    · exact .inr ⟨s, List.mem_cons_self, h⟩
    · exact .inl h
    · exact (ih h).imp_right fun ⟨t, ht, h⟩ => ⟨t, List.mem_cons_of_mem s ht, h⟩

/-- What is written in the source of a tree stands in a literal, or it is a brace
or a bar. -/
theorem mem_source {n : Node} {c : Char} (h : c ∈ n.source) :
    (∃ s ∈ n.literals, c ∈ s) ∨ c ∈ ['{', '}', '|'] := by
  have hAll : ∀ {ns : List Node} {n : Node}, n ∈ ns →
      (∃ s ∈ n.literals, c ∈ s) ∨ c ∈ ['{', '}', '|'] →
      (∃ s ∈ ns.flatMap literals, c ∈ s) ∨ c ∈ ['{', '}', '|'] := by
    intro ns n hn h
    exact h.imp_left fun ⟨s, hs, hc⟩ => ⟨s, List.mem_flatMap.mpr ⟨n, hn, hs⟩, hc⟩
  induction n using tree_induction with
  | text s => exact .inl ⟨s, List.mem_cons_self, h⟩
  | option s ns ih =>
    rw [source_option, List.mem_append, List.mem_flatMap] at h
    rw [literals_option]
    rcases h with h | ⟨n, hn, h⟩
    · exact .inl ⟨s, List.mem_cons_self, h⟩
    · exact (hAll hn (ih n hn h)).imp_left fun ⟨t, ht, hc⟩ =>
        ⟨t, List.mem_cons_of_mem s ht, hc⟩
  | choice ns ih =>
    rw [source_choice, List.mem_cons, List.mem_append, List.mem_singleton] at h
    rw [literals_choice]
    rcases h with rfl | h | rfl
    · exact .inr (by simp)
    · rcases mem_intercalate h with rfl | ⟨s, hs, h⟩
      · exact .inr (by simp)
      · obtain ⟨n, hn, rfl⟩ := List.mem_map.mp hs
        exact hAll hn (ih n hn h)
    · exact .inr (by simp)
  | root ns ih =>
    rw [source_root, List.mem_flatMap] at h
    rw [literals_root]
    obtain ⟨n, hn, h⟩ := h
    exact hAll hn (ih n hn h)

/-- Each of the texts is found among the characters. -/
theorem sublist_intercalate {s : List Char} {ss : List (List Char)} (h : s ∈ ss) :
    s.Sublist (['|'].intercalate ss) := by
  induction ss using Text.bars_induction with
  | nil => exact absurd h List.not_mem_nil
  | last t => rw [List.mem_singleton.mp h]
  | bar t ss ih =>
    rcases List.mem_cons.mp h with rfl | h
    · exact List.sublist_append_left ..
    · exact ((ih h).cons _).trans (List.sublist_append_right ..)

/-- A walk through a sequence spells characters of its source in order, if this holds of
its nodes. -/
theorem sublist_flatMap_source {ns : List Node}
    (h : ∀ n ∈ ns, ∀ {w t}, n.Walk w t → t.Sublist n.source) {w : List Pick} {t : List Char}
    (hWalk : WalkAll ns w t) : t.Sublist (ns.flatMap source) := by
  induction ns generalizing w t with
  | nil =>
    cases hWalk
    exact List.Sublist.slnil
  | cons n ns ih =>
    rw [List.forall_mem_cons] at h
    cases hWalk with
    | cons hWalk hRest => exact (h.1 hWalk).append (ih h.2 hRest)

/-- A rendering is part of the source. -/
theorem Walk.sublist_source {n : Node} {w : List Pick} {t : List Char} (h : n.Walk w t) :
    t.Sublist n.source := by
  induction n using tree_induction generalizing w t with
  | text s =>
    cases h
    exact List.Sublist.refl s
  | option s ns ih =>
    cases h with
    | option h =>
      rw [source_option]
      exact (List.Sublist.refl s).append
        (sublist_flatMap_source (fun n hn _ _ hWalk => ih n hn hWalk) h)
  | choice ns ih =>
    cases h with
    | noOption => exact List.nil_sublist _
    | choice hTaken h =>
      -- the option that is taken is written between the braces
      have hMem := List.mem_of_getElem? hTaken
      rw [source_choice]
      exact (((ih _ hMem h).trans (sublist_intercalate (List.mem_map_of_mem hMem))).trans
        (List.sublist_append_left ..)).cons _
  | root ns ih =>
    cases h with
    | root h =>
      rw [source_root]
      exact sublist_flatMap_source (fun n hn _ _ hWalk => ih n hn hWalk) h

/-- Every rendering of a tree spells characters of the source in order. -/
theorem sublist_source_of_mem_renderings {n : Node} {t : List Char} (h : t ∈ n.renderings) :
    t.Sublist n.source := by
  rw [renderings_eq_map_text] at h
  obtain ⟨p, hp, rfl⟩ := List.mem_map.mp h
  obtain ⟨w, hWalk, -⟩ := (mem_picks_iff n p).mp hp
  exact hWalk.sublist_source

/-- Where the source has no blanks, the renderings have none. -/
theorem letters_eq_renderings {n : Node} (h : ∀ c ∈ n.source, Text.isBlank c = false) :
    n.letters = n.renderings := by
  rw [letters, List.map_congr_left (g := id), List.map_id]
  intro t ht
  exact Text.letters_eq_self fun c hc => h c ((sublist_source_of_mem_renderings ht).subset hc)

end Node

/-- A text without blanks is normal. -/
theorem Text.normalize_eq_self_of_letters {s : List Char} (h : ∀ c ∈ s, isBlank c = false) :
    normalize s = s := by
  refine normalize_eq_self ?_ ?_ ?_
  · refine List.all_eq_true.mpr fun c hc => ?_
    have hBreak : ¬(c = '\r' ∨ c = '\n') := fun hBreak =>
      Bool.false_ne_true ((h c hc).symm.trans (isBlank_of_break hBreak))
    rw [not_or] at hBreak
    simp [hBreak.1, hBreak.2]
  · cases s with
    | nil => rfl
    | cons c s => exact h c List.mem_cons_self
  · rcases List.eq_nil_or_concat s with rfl | ⟨xs, c, rfl⟩
    · rfl
    · rw [List.concat_eq_append, endsBlank_append _ (List.cons_ne_nil c [])]
      exact h c (by simp)

/-- **What is written and read again has the same renderings** in the same order,
but for blanks, and there is nothing to repair. This holds of every tree whose
literals are plain, be it tidy and well formed or not, as long as its choices do
not nest too deep. -/
theorem renderings_ofText_source {t : Node} {maxDepth : Nat}
    (hPlain : ∀ s ∈ t.literals, Text.Plain s) (hDepth : t.choiceDepth ≤ maxDepth) :
    (Reading.ofText maxDepth t.source).diagnostics = [] ∧
      (Reading.ofText maxDepth t.source).root.count = t.count ∧
      (Reading.ofText maxDepth t.source).root.renderings.map Text.letters =
        t.renderings.map Text.letters ∧
      ((∀ s ∈ t.literals, ∀ c ∈ s, Text.isBlank c = false) →
        (Reading.ofText maxDepth t.source).root.renderings = t.renderings) := by
  -- a plain literal has no backslash, and between literals none is written
  have hBackslash : '\\' ∉ t.source := by
    intro h
    rcases Node.mem_source h with ⟨s, hs, hc⟩ | h
    · exact (hPlain s hs).backslash_not_mem hc
    · exact absurd h (by decide)
  have hBalanced : Text.Balanced t.choiceDepth t.source :=
    Node.balanced_source fun s hs => .of_plain (hPlain s hs)
  have hNone := diagnostics_eq_nil_of_nested hBackslash (hBalanced.nested hDepth)
  -- what the source says is what the tree that is read says, and what the tree says
  have hLetters : (Reading.ofText maxDepth t.source).root.letters = t.letters := by
    refine letters_root_ofText hBackslash (by simp [hNone]) ?_
    rw [Meaning.after_source hPlain]
    exact congrArg (Meaning.mk []) (unit_crossed _)
  refine ⟨hNone, ?_, hLetters, fun hBlank => ?_⟩
  · have hLength := congrArg List.length hLetters
    rwa [Node.letters, Node.letters, List.length_map, List.length_map, Node.length_renderings,
      Node.length_renderings] at hLength
  · -- without blanks in the source there are none in what is read from it
    have hSource : ∀ c ∈ t.source, Text.isBlank c = false := by
      intro c hc
      rcases Node.mem_source hc with ⟨s, hs, hc⟩ | hc
      · exact hBlank s hs c hc
      · exact Text.isBlank_eq_false (List.mem_append_left ['\\'] hc)
    have hThin : Text.Thinned t.source (Reading.ofText maxDepth t.source).root.source := by
      have hRewritten := thinned_rewritten maxDepth t.source
      rwa [hNone, Text.normalize_eq_self_of_letters hSource,
        show List.replicate (unterminated []) '}' = [] from rfl, List.append_nil] at hRewritten
    have hRead : ∀ c ∈ (Reading.ofText maxDepth t.source).root.source,
        Text.isBlank c = false := fun c hc => hSource c (hThin.sublist.subset hc)
    rw [← Node.letters_eq_renderings hRead, hLetters, Node.letters_eq_renderings hSource]

/-- Texts side by side, one of them empty, blanks around a choice, and choices
without options. -/
theorem renderings_ofText_of_untidy :
    let tree := Node.root [.text ['a'], .text [], .text [' ', 'b'],
      .choice [.option ['\t'] [.text ['x'], .choice [], .text [' ']], .option [] []], .choice []]
    (∀ s ∈ tree.literals, Text.Plain s) ∧ tree.choiceDepth ≤ defaultMaxDepth ∧
      (parse tree.source).renderings.map Text.letters = [['a', 'b', 'x'], ['a', 'b']] := by
  intro tree
  have hPlain : ∀ s ∈ tree.literals, Text.Plain s := by decide
  have hDepth : tree.choiceDepth ≤ defaultMaxDepth := by decide
  obtain ⟨-, -, hLetters, -⟩ := renderings_ofText_source hPlain hDepth
  exact ⟨hPlain, hDepth, hLetters.trans (by decide)⟩

end Spintax
