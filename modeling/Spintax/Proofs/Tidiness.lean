import Spintax.Proofs.Normal
import Spintax.Proofs.Runs
import Spintax.Proofs.Thinned

/-!
# Spintax — what reading returns is tidy

At any depth and for any text: texts are joined and none is empty, options are
in their simplest form, no choice is without options, and a sequence that was
read from a trimmed run has no blank at its ends.

The ends of a sequence come from the ends of its run (`startsBlank_of_nodesOf`,
`endsBlank_of_nodesOf`). An option is trimmed as a run, before it is read, so
its sequence is trimmed too, and making an option of it comes down to leaving
out the texts of blanks (`Node.optionOf_eq_wrap`).

* `isJoined_nodesOf`, `isTrimmed_nodesOf`, `isTidyAll_nodesOf`;
* `wellFormed_nodesOf` — the child rules hold;
* `choiceDepthAll_nodesOf_le` — choices nest no deeper than is allowed.
-/

namespace Spintax

namespace Node

/-! ## Sequences -/

/-- A list of nodes is tidy if each of its nodes is. -/
theorem isTidyAll_iff {ns : List Node} : isTidyAll ns = true ↔ ∀ n ∈ ns, isTidy n = true := by
  induction ns with
  | nil => simp [isTidyAll]
  | cons n ns ih => simp [isTidyAll, ih]

/-- A list of nodes is accepted if the parent accepts each of them and each is well
formed. -/
theorem allAccepted_iff {parent : Kind} {ns : List Node} :
    AllAccepted parent ns ↔ ∀ n ∈ ns, parent.accepts n.kind = true ∧ WellFormed n := by
  induction ns with
  | nil => simp [AllAccepted]
  | cons n ns ih => simp [AllAccepted, ih, and_assoc]

/-- A text may come first if it is not empty and no text follows. -/
theorem isJoined_text_cons (s : List Char) (ns : List Node) :
    isJoined (.text s :: ns) = true ↔
      s ≠ [] ∧ ns.head?.bind text? = none ∧ isJoined ns = true := by
  cases ns with
  | nil => simp [isJoined]
  | cons n ns => cases n <;> simp [isJoined, text?]

theorem isJoined_cons {n : Node} (h : text? n = none) (ns : List Node) :
    isJoined (n :: ns) = isJoined ns := by
  cases n with
  | text s => exact absurd h (by simp [text?])
  | _ => rfl

theorem isJoined_tail {n : Node} {ns : List Node} (h : isJoined (n :: ns) = true) :
    isJoined ns = true := by
  cases n with
  | text s => exact ((isJoined_text_cons s ns).mp h).2.2
  | _ => exact h

/-- Among joined nodes no text is empty. -/
theorem ne_nil_of_isJoined {s : List Char} {ns : List Node} (h : isJoined ns = true)
    (hMem : .text s ∈ ns) : s ≠ [] := by
  induction ns with
  | nil => exact absurd hMem (by simp)
  | cons n ns ih =>
    rcases List.mem_cons.mp hMem with rfl | hMem
    · exact ((isJoined_text_cons s ns).mp h).1
    · exact ih (isJoined_tail h) hMem

/-! ## Text in front -/

theorem consText_text (s t : List Char) (ns : List Node) :
    consText s (.text t :: ns) = .text (s ++ t) :: ns := by
  cases s <;> rfl

/-- In front of any other node a text is a node of its own. -/
theorem consText_of_ne_text {s : List Char} (hs : s ≠ []) {ns : List Node}
    (h : ns.head?.bind text? = none) : consText s ns = .text s :: ns := by
  obtain ⟨c, s, rfl⟩ := List.exists_cons_of_ne_nil hs
  cases ns with
  | nil => rfl
  | cons n ns =>
    cases n with
    | text t => exact absurd h (by simp [text?])
    | _ => rfl

/-- What stands in front of a sequence is its first text, or the beginning of it. -/
theorem consText_cases {s : List Char} (hs : s ≠ []) (ns : List Node) :
    (ns.head?.bind text? = none ∧ consText s ns = .text s :: ns) ∨
      ∃ t ns', ns = .text t :: ns' ∧ consText s ns = .text (s ++ t) :: ns' := by
  cases h : ns.head?.bind text? with
  | none => exact .inl ⟨rfl, consText_of_ne_text hs h⟩
  | some t =>
    cases ns with
    | nil => exact absurd h (by simp)
    | cons n ns =>
      cases n with
      | text t => exact .inr ⟨t, ns, rfl, consText_text s t ns⟩
      | _ => exact absurd h (by simp [text?])

/-- A text in front of joined nodes leaves them joined. -/
theorem isJoined_consText {s : List Char} (hs : s ≠ []) {ns : List Node}
    (h : isJoined ns = true) : isJoined (consText s ns) = true := by
  rcases consText_cases hs ns with ⟨hHead, hEq⟩ | ⟨t, ns', rfl, hEq⟩
  · rw [hEq, isJoined_text_cons]
    exact ⟨hs, hHead, h⟩
  · rw [isJoined_text_cons] at h
    rw [hEq, isJoined_text_cons]
    exact ⟨by simp [hs], h.2⟩

/-- A text in front of nodes changes the first of them at most, and only if that is a
text. -/
theorem mem_consText {s : List Char} (hs : s ≠ []) {n : Node} {ns : List Node}
    (h : n ∈ consText s ns) : n ∈ ns ∨ n = .text s ∨ ∃ t, .text t ∈ ns ∧ n = .text (s ++ t) := by
  rcases consText_cases hs ns with ⟨hHead, hEq⟩ | ⟨t, ns', rfl, hEq⟩
  · rw [hEq] at h
    rcases List.mem_cons.mp h with rfl | h
    · exact .inr (.inl rfl)
    · exact .inl h
  · rw [hEq] at h
    rcases List.mem_cons.mp h with rfl | h
    · exact .inr (.inr ⟨t, List.mem_cons_self .., rfl⟩)
    · exact .inl (List.mem_cons_of_mem _ h)

end Node

/-! ## Runs -/

/-- At the depth limit the whole run is one text. -/
theorem nodesOf_zero {ls : List Lexeme} (h : ls ≠ []) :
    nodesOf 0 ls = [.text (Lexeme.spellAll ls)] := by
  rw [nodesOf, Node.consText_of_ne_nil (mt Lexeme.spellAll_eq_nil.mp h)]

theorem nodesOf_eq_nil {depth : Nat} {ls : List Lexeme} : nodesOf depth ls = [] ↔ ls = [] := by
  constructor
  · intro h
    cases depth with
    | zero =>
      by_cases hnil : ls = []
      · exact hnil
      · exact absurd h (by simp [nodesOf_zero hnil])
    | succ depth =>
      induction ls using Lexeme.run_induction with
      | nil => rfl
      | literal l ls hTok ih =>
        rw [nodesOf_literal hTok] at h
        rcases Node.consText_cases l.spelling_ne_nil (nodesOf (depth + 1) ls) with
          ⟨-, hEq⟩ | ⟨t, ns', -, hEq⟩
        · exact absurd h (by simp [hEq])
        · exact absurd h (by simp [hEq])
      | stray l hTok => exact absurd h (by simp [nodesOf_singleton])
      | closed l ls r hTok hr ih => exact absurd h (by simp [nodesOf_closed hTok hr])
      | unclosed l ls hTok hne hr => exact absurd h (by simp [nodesOf_unclosed hTok hne hr])
  · rintro rfl
    exact nodesOf_nil depth

/-- **No two texts meet among the nodes of a run**, and none is empty. -/
theorem isJoined_nodesOf (depth : Nat) (ls : List Lexeme) :
    Node.isJoined (nodesOf depth ls) = true := by
  cases depth with
  | zero =>
    by_cases hnil : ls = []
    · rw [hnil, nodesOf_nil]
      rfl
    · rw [nodesOf_zero hnil, Node.isJoined_text_cons]
      exact ⟨mt Lexeme.spellAll_eq_nil.mp hnil, rfl, rfl⟩
  | succ depth =>
    induction ls using Lexeme.run_induction with
    | nil => rw [nodesOf_nil]; rfl
    | literal l ls hTok ih =>
      rw [nodesOf_literal hTok]
      exact Node.isJoined_consText l.spelling_ne_nil ih
    | stray l hTok =>
      rw [nodesOf_singleton, Node.isJoined_text_cons]
      exact ⟨l.spelling_ne_nil, rfl, rfl⟩
    | closed l ls r hTok hr ih =>
      rw [nodesOf_closed hTok hr, Node.isJoined_cons rfl]
      exact ih
    | unclosed l ls hTok hne hr =>
      rw [nodesOf_unclosed hTok hne hr]
      rfl

/-- A text that comes first begins as its run does. -/
theorem startsBlank_of_nodesOf {depth : Nat} {ls : List Lexeme} {s : List Char} {ns : List Node}
    (h : nodesOf depth ls = .text s :: ns) :
    Text.startsBlank s = Text.startsBlank (Lexeme.spellAll ls) := by
  cases depth with
  | zero =>
    by_cases hnil : ls = []
    · exact absurd h (by simp [hnil, nodesOf_nil])
    · rw [nodesOf_zero hnil] at h
      rw [Node.text.inj (List.cons.inj h).1]
  | succ depth =>
    induction ls using Lexeme.run_induction with
    | nil => exact absurd h (by simp [nodesOf_nil])
    | literal l ls hTok ih =>
      rw [nodesOf_literal hTok] at h
      rw [Lexeme.spellAll_cons, Text.startsBlank_append l.spelling_ne_nil]
      rcases Node.consText_cases l.spelling_ne_nil (nodesOf (depth + 1) ls) with
        ⟨-, hEq⟩ | ⟨t, ns', -, hEq⟩
      · rw [hEq] at h
        rw [Node.text.inj (List.cons.inj h).1]
      · rw [hEq] at h
        rw [← Node.text.inj (List.cons.inj h).1, Text.startsBlank_append l.spelling_ne_nil]
    | stray l hTok =>
      rw [nodesOf_singleton] at h
      rw [← Node.text.inj (List.cons.inj h).1]
      simp [Lexeme.spellAll]
    | closed l ls r hTok hr ih => exact absurd h (by simp [nodesOf_closed hTok hr])
    | unclosed l ls hTok hne hr => exact absurd h (by simp [nodesOf_unclosed hTok hne hr])

/-- A text that comes last ends as its run does. -/
theorem endsBlank_of_nodesOf {depth : Nat} {ls : List Lexeme} {s : List Char}
    (h : (nodesOf depth ls).getLast? = some (.text s)) :
    Text.endsBlank s = Text.endsBlank (Lexeme.spellAll ls) := by
  cases depth with
  | zero =>
    by_cases hnil : ls = []
    · exact absurd h (by simp [hnil, nodesOf_nil])
    · rw [nodesOf_zero hnil] at h
      rw [Node.text.inj (Option.some.inj h)]
  | succ depth =>
    induction ls using Lexeme.run_induction generalizing s with
    | nil => exact absurd h (by simp [nodesOf_nil])
    | literal l ls hTok ih =>
      rw [nodesOf_literal hTok] at h
      rw [Lexeme.spellAll_cons]
      by_cases hnil : ls = []
      · rw [hnil, nodesOf_nil, Node.consText_of_ne_nil l.spelling_ne_nil] at h
        rw [← Node.text.inj (Option.some.inj h), hnil]
        simp [Lexeme.spellAll]
      · rw [Text.endsBlank_append _ (mt Lexeme.spellAll_eq_nil.mp hnil)]
        have hne : nodesOf (depth + 1) ls ≠ [] := mt nodesOf_eq_nil.mp hnil
        -- the lexeme stands alone, or it goes into the text that comes next
        rcases Node.consText_cases l.spelling_ne_nil (nodesOf (depth + 1) ls) with
          ⟨-, hEq⟩ | ⟨t, ns', hNodes, hEq⟩
        · rw [hEq, List.getLast?_cons_of_ne_nil hne] at h
          exact ih h
        · rw [hEq] at h
          by_cases hns : ns' = []
          · -- the text is the whole sequence, and only its end counts
            subst hns
            have hJoined := isJoined_nodesOf (depth + 1) ls
            rw [hNodes, Node.isJoined_text_cons] at hJoined
            rw [← Node.text.inj (Option.some.inj h), Text.endsBlank_append _ hJoined.1]
            exact ih (by rw [hNodes]; rfl)
          · rw [List.getLast?_cons_of_ne_nil hns] at h
            exact ih (by rw [hNodes, List.getLast?_cons_of_ne_nil hns, h])
    | stray l hTok =>
      rw [nodesOf_singleton] at h
      rw [← Node.text.inj (Option.some.inj h)]
      simp [Lexeme.spellAll]
    | closed l ls r hTok hr ih =>
      rw [nodesOf_closed hTok hr] at h
      by_cases hnil : r = []
      · rw [hnil, nodesOf_nil] at h
        exact absurd h (by simp)
      · -- the last node comes from what follows the choice, and so does the last character
        rw [List.getLast?_cons_of_ne_nil (mt nodesOf_eq_nil.mp hnil)] at h
        obtain ⟨xs, hxs⟩ := Body.suffix_cons_of_rest hr l
        rw [← hxs, Lexeme.spellAll_append,
          Text.endsBlank_append _ (mt Lexeme.spellAll_eq_nil.mp hnil)]
        exact ih h
    | unclosed l ls hTok hne hr => exact absurd h (by simp [nodesOf_unclosed hTok hne hr])

/-- A node of a run is a text of characters of the run, or a choice that opens
in it. -/
theorem mem_nodesOf {depth : Nat} {ls : List Lexeme} {n : Node} (h : n ∈ nodesOf depth ls) :
    (∃ s, n = .text s ∧ ∀ c ∈ s, c ∈ Lexeme.spellAll ls) ∨
      ∃ d xs, depth = d + 1 ∧ xs <:+ ls ∧
        n = .choice ((Body.ofLexemes 0 xs).options.map (optionNode (nodesOf d))) := by
  cases depth with
  | zero =>
    by_cases hnil : ls = []
    · exact absurd h (by simp [hnil, nodesOf_nil])
    · rw [nodesOf_zero hnil, List.mem_singleton] at h
      exact .inl ⟨_, h, fun c hc => hc⟩
  | succ depth =>
    induction ls using Lexeme.run_induction generalizing n with
    | nil => exact absurd h (by simp [nodesOf_nil])
    | literal l ls hTok ih =>
      rw [nodesOf_literal hTok] at h
      -- a text of the rest may have grown at its beginning
      have hRest : n ∈ nodesOf (depth + 1) ls →
          (∃ s, n = .text s ∧ ∀ c ∈ s, c ∈ Lexeme.spellAll (l :: ls)) ∨
            ∃ d xs, depth + 1 = d + 1 ∧ xs <:+ l :: ls ∧
              n = .choice ((Body.ofLexemes 0 xs).options.map (optionNode (nodesOf d))) := by
        intro hMem
        rcases ih hMem with ⟨s, rfl, hs⟩ | ⟨d, xs, hd, hxs, rfl⟩
        · refine .inl ⟨s, rfl, fun c hc => ?_⟩
          rw [Lexeme.spellAll_cons]
          exact List.mem_append_right _ (hs c hc)
        · exact .inr ⟨d, xs, hd, hxs.trans (List.suffix_cons l ls), rfl⟩
      rcases Node.mem_consText l.spelling_ne_nil h with h | rfl | ⟨t, ht, rfl⟩
      · exact hRest h
      · refine .inl ⟨_, rfl, fun c hc => ?_⟩
        rw [Lexeme.spellAll_cons]
        exact List.mem_append_left _ hc
      · -- a text that grew: its old characters come from the rest
        refine .inl ⟨_, rfl, fun c hc => ?_⟩
        rw [Lexeme.spellAll_cons]
        rcases List.mem_append.mp hc with hc | hc
        · exact List.mem_append_left _ hc
        · rcases ih ht with ⟨s, hText, hs⟩ | ⟨d, xs, -, -, hChoice⟩
          · obtain rfl := Node.text.inj hText
            exact List.mem_append_right _ (hs c hc)
          · exact absurd hChoice (by simp)
    | stray l hTok =>
      rw [nodesOf_singleton, List.mem_singleton] at h
      refine .inl ⟨_, h, fun c hc => ?_⟩
      rw [Lexeme.spellAll_cons]
      exact List.mem_append_left _ hc
    | closed l ls r hTok hr ih =>
      rw [nodesOf_closed hTok hr] at h
      have hSuffix := Body.suffix_cons_of_rest hr l
      rcases List.mem_cons.mp h with rfl | h
      · exact .inr ⟨depth, ls, rfl, List.suffix_cons l ls, rfl⟩
      · rcases ih h with ⟨s, rfl, hs⟩ | ⟨d, xs, hd, hxs, rfl⟩
        · obtain ⟨pre, hPre⟩ := hSuffix
          refine .inl ⟨s, rfl, fun c hc => ?_⟩
          rw [← hPre, Lexeme.spellAll_append]
          exact List.mem_append_right _ (hs c hc)
        · exact .inr ⟨d, xs, hd, hxs.trans hSuffix, rfl⟩
    | unclosed l ls hTok hne hr =>
      rw [nodesOf_unclosed hTok hne hr, List.mem_singleton] at h
      exact .inr ⟨depth, ls, rfl, List.suffix_cons l ls, h⟩

/-- A run is read as texts and choices. -/
theorem kind_of_mem_nodesOf {depth : Nat} {ls : List Lexeme} {n : Node}
    (h : n ∈ nodesOf depth ls) : n.kind = .text ∨ n.kind = .choice := by
  rcases mem_nodesOf h with ⟨s, rfl, -⟩ | ⟨d, xs, -, -, rfl⟩
  · exact .inl rfl
  · exact .inr rfl

/-- If a run does not end with a blank, its nodes do not. -/
theorem isTrimmedEnd_nodesOf (depth : Nat) {ls : List Lexeme}
    (hEnd : Text.endsBlank (Lexeme.spellAll ls) = false) :
    Node.isTrimmedEnd (nodesOf depth ls) = true := by
  rw [Node.isTrimmedEnd, Bool.not_eq_true']
  cases hNode : (nodesOf depth ls).getLast? with
  | none => rfl
  | some n =>
    cases n with
    | text s => exact (endsBlank_of_nodesOf hNode).trans hEnd
    | _ => rfl

/-- A run without blanks at its ends gives a sequence without blanks at its ends. -/
theorem isTrimmed_nodesOf (depth : Nat) {ls : List Lexeme}
    (hStart : Text.startsBlank (Lexeme.spellAll ls) = false)
    (hEnd : Text.endsBlank (Lexeme.spellAll ls) = false) :
    Node.isTrimmed (nodesOf depth ls) = true := by
  rw [Node.isTrimmed, isTrimmedEnd_nodesOf depth hEnd, Bool.and_true, Bool.not_eq_true']
  cases hNodes : nodesOf depth ls with
  | nil => rfl
  | cons n ns =>
    cases n with
    | text s => exact (startsBlank_of_nodesOf hNodes).trans hStart
    | _ => rfl

/-- The nodes of a trimmed run have no blank at either end. -/
theorem isTrimmed_nodesOf_trim (depth : Nat) (ls : List Lexeme) :
    Node.isTrimmed (nodesOf depth (Lexeme.trim ls)) = true := by
  apply isTrimmed_nodesOf
  · rw [Lexeme.spellAll_trim]
    exact Text.startsBlank_trim _
  · rw [Lexeme.spellAll_trim]
    exact Text.endsBlank_trim _

/-! ## Options -/

namespace Node

/-- The option of a sequence in which nothing is left to simplify but texts of
blanks. -/
def wrapOption : List Node → Node
  | .text s :: ns => .option s (ns.filter fun n => !n.isBlankText)
  | ns => .option [] (ns.filter fun n => !n.isBlankText)

/-- An option whose sequence begins with a choice has no content. -/
theorem wrapOption_of_ne_text {ns : List Node} (h : ns.head?.bind text? = none) :
    wrapOption ns = .option [] (ns.filter fun n => !n.isBlankText) := by
  unfold wrapOption
  split
  · exact absurd h (by simp [text?])
  · rfl

/-- A text is blank only if it ends with a blank. -/
theorem not_isBlankText_of_endsBlank {s : List Char} (hs : s ≠ [])
    (h : Text.endsBlank s = false) : isBlankText (.text s) = false := by
  obtain ⟨xs, c, rfl⟩ : ∃ xs c, s = xs ++ [c] :=
    ⟨s.dropLast, s.getLast hs, (List.dropLast_concat_getLast hs).symm⟩
  have hc : Text.isBlank c = false := by simpa [Text.endsBlank] using h
  simp [isBlankText, Text.allBlank, hc]

theorem filter_cons_of_ne_text {n : Node} (h : text? n = none) (ns : List Node) :
    (n :: ns).filter (fun n => !n.isBlankText) = n :: ns.filter fun n => !n.isBlankText := by
  refine List.filter_cons_of_pos ?_
  cases n with
  | text t => exact absurd h (by simp [text?])
  | _ => rfl

/-- In a trimmed sequence the last node is never left out. -/
theorem getLast?_filter_of_trimmed {ns : List Node} (hJoined : isJoined ns = true)
    (hTrim : isTrimmedEnd ns = true) :
    (ns.filter fun n => !n.isBlankText).getLast? = ns.getLast? := by
  rcases List.eq_nil_or_concat ns with rfl | ⟨xs, n, rfl⟩
  · rfl
  · rw [List.concat_eq_append] at *
    -- a text at the end is neither empty nor ends with a blank
    have hKept : (!n.isBlankText) = true := by
      cases n with
      | text s =>
        have hs : s ≠ [] := ne_nil_of_isJoined hJoined (by simp)
        rw [not_isBlankText_of_endsBlank hs (by simpa [isTrimmedEnd, text?] using hTrim)]
        rfl
      | _ => rfl
    have hLast : [n].filter (fun m => !m.isBlankText) = [n] := by
      rw [List.filter_cons, hKept]
      rfl
    rw [List.filter_append, hLast, List.getLast?_append, List.getLast?_append]
    rfl

/-- Making an option of a trimmed sequence only leaves out texts of blanks. -/
theorem optionOf_eq_wrap {ns : List Node} (hJoined : isJoined ns = true)
    (hTrim : isTrimmed ns = true) : optionOf ns = wrapOption ns := by
  cases ns with
  | nil => rfl
  | cons n ns =>
    cases hText : text? n with
    | none =>
      have hKept := filter_cons_of_ne_text hText ns
      rw [wrapOption_of_ne_text (by simpa using hText), hKept]
      cases n with
      | text s => exact absurd hText (by simp [text?])
      | _ => rw [optionOf, hKept, simplifyOption] <;> simp
    | some s =>
      obtain rfl : n = .text s := by cases n <;> simp_all [text?]
      rw [optionOf, wrapOption]
      cases ns with
      | nil =>
        -- a text alone is trimmed as it stands
        have hEnds : Text.startsBlank s = false ∧ Text.endsBlank s = false := by
          simpa [isTrimmed, isTrimmedEnd, text?] using hTrim
        have hs := ((isJoined_text_cons s []).mp hJoined).1
        cases s with
        | nil => exact absurd rfl hs
        | cons c s =>
          rw [List.filter_nil, simplifyOption, Text.trim_eq_self hEnds.1 hEnds.2]
      | cons m ms =>
        -- more than a text stays as it stands
        obtain ⟨hs, hText, -⟩ := (isJoined_text_cons s (m :: ms)).mp hJoined
        rw [filter_cons_of_ne_text hText, simplifyOption] <;> simp_all

end Node

/-! ## Trees -/

namespace Node

/-- Blank texts stand between choices, so the rest stays joined without them. -/
theorem isJoined_filter_isBlankText {ns : List Node} (h : isJoined ns = true) :
    isJoined (ns.filter fun n => !n.isBlankText) = true := by
  induction ns with
  | nil => rfl
  | cons n ns ih =>
    have ih := ih (isJoined_tail h)
    cases n with
    | text s =>
      rw [List.filter_cons]
      split
      · rw [isJoined_text_cons]
        rw [isJoined_text_cons] at h
        refine ⟨h.1, ?_, ih⟩
        -- no text follows this one, and what is no text is not left out
        cases ns with
        | nil => rfl
        | cons m ms =>
          rw [filter_cons_of_ne_text h.2.1]
          exact h.2.1
      · exact ih
    | _ =>
      rw [filter_cons_of_ne_text rfl, isJoined_cons rfl]
      exact ih

theorem isTidyAll_filter {ns : List Node} (h : isTidyAll ns = true) (p : Node → Bool) :
    isTidyAll (ns.filter p) = true :=
  isTidyAll_iff.mpr fun n hn => isTidyAll_iff.mp h n (List.mem_filter.mp hn).1

/-- An option that begins with a choice is tidy when its texts of blanks are left out. -/
theorem isTidyOption_cons {s : List Char} {n : Node} {ns : List Node} (hKind : n.kind = .choice)
    (hStart : Text.startsBlank s = false) (hJoined : isJoined (n :: ns) = true)
    (hEnd : isTrimmedEnd (n :: ns) = true) :
    isTidyOption s ((n :: ns).filter fun n => !n.isBlankText) = true := by
  have hText : text? n = none := by cases n <;> simp_all [text?]
  -- first and last node both stay, so the ends are those of the sequence
  have hLast := getLast?_filter_of_trimmed hJoined hEnd
  rw [isTrimmedEnd, ← hLast, ← isTrimmedEnd] at hEnd
  rw [filter_cons_of_ne_text hText] at hEnd ⊢
  rw [isTidyOption, hEnd, hKind, hStart]
  simp

/-- The option of a tidy sequence of texts and choices is tidy. -/
theorem isTidy_wrapOption {ns : List Node} (hKind : ∀ n ∈ ns, n.kind = .text ∨ n.kind = .choice)
    (hJoined : isJoined ns = true) (hTrim : isTrimmed ns = true) (hTidy : isTidyAll ns = true) :
    isTidy (wrapOption ns) = true := by
  have hFilter := isTidyAll_filter hTidy fun n => !n.isBlankText
  cases ns with
  | nil => rfl
  | cons n ns =>
    cases n with
    | text s =>
      rw [isTidyAll, Bool.and_eq_true] at hTidy
      rw [isTrimmed, Bool.and_eq_true] at hTrim
      have hStart : Text.startsBlank s = false := by simpa [text?] using hTrim.1
      have hTail := isJoined_tail hJoined
      rw [wrapOption, isTidy, show Text.isOneLine s = true from hTidy.1,
        isJoined_filter_isBlankText hTail, isTidyAll_filter hTidy.2]
      simp only [Bool.true_and, Bool.and_true]
      cases ns with
      | nil =>
        have hEnd : Text.endsBlank s = false := by simpa [isTrimmedEnd, text?] using hTrim.2
        simp [isTidyOption, Text.trim_eq_self hStart hEnd]
      | cons m ms =>
        -- after a text comes no text
        have hChoice : m.kind = .choice := by
          rcases hKind m (by simp) with hm | hm
          · have hText : text? m = none := ((isJoined_text_cons s (m :: ms)).mp hJoined).2.1
            cases m <;> simp_all [text?]
          · exact hm
        exact isTidyOption_cons hChoice hStart hTail hTrim.2
    | choice os =>
      rw [isTrimmed, Bool.and_eq_true] at hTrim
      rw [wrapOption_of_ne_text rfl, isTidy, isJoined_filter_isBlankText hJoined, hFilter,
        isTidyOption_cons rfl rfl hJoined hTrim.2]
      rfl
    | _ => exact absurd (hKind _ (List.mem_cons_self ..)) (by simp)

/-- An option of well-formed texts and choices is well formed. -/
theorem wellFormed_wrapOption {ns : List Node}
    (hKind : ∀ n ∈ ns, n.kind = .text ∨ n.kind = .choice) (hWell : ∀ n ∈ ns, WellFormed n) :
    (wrapOption ns).kind = .option ∧ WellFormed (wrapOption ns) := by
  have hAccepts : ∀ n ∈ ns, Kind.option.accepts n.kind = true ∧ WellFormed n := by
    intro n hn
    refine ⟨?_, hWell n hn⟩
    rcases hKind n hn with h | h <;> rw [h] <;> rfl
  unfold wrapOption
  split
  · next s ns =>
    refine ⟨rfl, allAccepted_iff.mpr fun n hn => ?_⟩
    exact hAccepts n (List.mem_cons_of_mem _ (List.mem_filter.mp hn).1)
  · exact ⟨rfl, allAccepted_iff.mpr fun n hn => hAccepts n (List.mem_filter.mp hn).1⟩

theorem choiceDepthAll_le_iff {ns : List Node} {limit : Nat} :
    choiceDepthAll ns ≤ limit ↔ ∀ n ∈ ns, n.choiceDepth ≤ limit := by
  induction ns with
  | nil => simp [choiceDepthAll]
  | cons n ns ih => rw [choiceDepthAll, Nat.max_le, ih, List.forall_mem_cons]

/-- Making an option adds no level to what nests in it. -/
theorem choiceDepth_wrapOption_le {ns : List Node} {limit : Nat}
    (h : ∀ n ∈ ns, n.choiceDepth ≤ limit) : (wrapOption ns).choiceDepth ≤ limit := by
  unfold wrapOption
  split
  · next s ns =>
    refine choiceDepthAll_le_iff.mpr fun n hn => ?_
    exact h n (List.mem_cons_of_mem _ (List.mem_filter.mp hn).1)
  · exact choiceDepthAll_le_iff.mpr fun n hn => h n (List.mem_filter.mp hn).1

end Node

/-- The option of a run, as a sequence of which only blank texts are left out. -/
theorem optionNode_eq_wrap (depth : Nat) (o : List Lexeme) :
    optionNode (nodesOf depth) o = Node.wrapOption (nodesOf depth (Lexeme.trim o)) := by
  rw [optionNode_nodesOf]
  exact Node.optionOf_eq_wrap (isJoined_nodesOf _ _) (isTrimmed_nodesOf_trim _ _)

/-- A part of a run in one line is in one line. -/
theorem Lexeme.isOneLine_spellAll_of_infix {o ls : List Lexeme} (h : o <:+: ls)
    (hLine : Text.isOneLine (spellAll ls) = true) : Text.isOneLine (spellAll o) = true := by
  obtain ⟨xs, ys, rfl⟩ := h
  rw [spellAll_append, spellAll_append, Text.isOneLine_append, Text.isOneLine_append,
    Bool.and_eq_true, Bool.and_eq_true] at hLine
  exact hLine.1.2

/-- Trimming a run breaks no line. -/
theorem Lexeme.isOneLine_spellAll_trim {ls : List Lexeme}
    (hLine : Text.isOneLine (spellAll ls) = true) :
    Text.isOneLine (spellAll (trim ls)) = true := by
  rw [spellAll_trim, Text.isOneLine, List.all_eq_true]
  intro c hc
  exact List.all_eq_true.mp hLine c ((Text.thinned_trim _).sublist.subset hc)

/-- **The nodes of one line are tidy.** -/
theorem isTidyAll_nodesOf {depth : Nat} {ls : List Lexeme}
    (hLine : Text.isOneLine (Lexeme.spellAll ls) = true) :
    Node.isTidyAll (nodesOf depth ls) = true := by
  induction depth using Nat.strongRecOn generalizing ls with
  | _ depth ihDepth =>
    -- on the depth alone: the options of any choice in the run are read below it
    rw [Node.isTidyAll_iff]
    intro n hn
    rcases mem_nodesOf hn with ⟨s, rfl, hs⟩ | ⟨d, xs, rfl, hxs, rfl⟩
    · exact List.all_eq_true.mpr fun c hc => List.all_eq_true.mp hLine c (hs c hc)
    · rw [Node.isTidy, Bool.and_eq_true]
      refine ⟨rfl, Node.isTidyAll_iff.mpr fun m hm => ?_⟩
      obtain ⟨o, ho, rfl⟩ := List.mem_map.mp hm
      -- an option is part of the line, and trimming adds no line break
      have hInfix : o <:+: ls := (Body.infix_of_mem_options ho).trans hxs.isInfix
      have hLine := Lexeme.isOneLine_spellAll_of_infix hInfix hLine
      rw [optionNode_eq_wrap]
      exact Node.isTidy_wrapOption (fun n => kind_of_mem_nodesOf) (isJoined_nodesOf _ _)
        (isTrimmed_nodesOf_trim _ _)
        (ihDepth d (Nat.lt_succ_self d) (Lexeme.isOneLine_spellAll_trim hLine))

/-- **The nodes of a run are well formed.** -/
theorem wellFormed_nodesOf {depth : Nat} {ls : List Lexeme} :
    ∀ n ∈ nodesOf depth ls, Node.WellFormed n := by
  induction depth using Nat.strongRecOn generalizing ls with
  | _ depth ihDepth =>
    intro n hn
    rcases mem_nodesOf hn with ⟨s, rfl, hs⟩ | ⟨d, xs, rfl, hxs, rfl⟩
    · exact trivial
    · refine Node.allAccepted_iff.mpr fun m hm => ?_
      obtain ⟨o, -, rfl⟩ := List.mem_map.mp hm
      rw [optionNode_eq_wrap]
      -- a choice accepts options, and an option the texts and choices of its run
      have hNodes : ∀ n ∈ nodesOf d (Lexeme.trim o), Node.WellFormed n :=
        ihDepth d (Nat.lt_succ_self d)
      obtain ⟨hKind, hWell⟩ := Node.wellFormed_wrapOption (fun n => kind_of_mem_nodesOf) hNodes
      exact ⟨by rw [hKind]; rfl, hWell⟩

/-- **Choices nest no deeper than is allowed.** -/
theorem choiceDepthAll_nodesOf_le (depth : Nat) (ls : List Lexeme) :
    Node.choiceDepthAll (nodesOf depth ls) ≤ depth := by
  induction depth using Nat.strongRecOn generalizing ls with
  | _ depth ihDepth =>
    refine Node.choiceDepthAll_le_iff.mpr fun n hn => ?_
    rcases mem_nodesOf hn with ⟨s, rfl, hs⟩ | ⟨d, xs, rfl, hxs, rfl⟩
    · exact Nat.zero_le depth
    · -- the choice takes one level, and its options are read with the others
      refine Nat.succ_le_succ (Node.choiceDepthAll_le_iff.mpr fun m hm => ?_)
      obtain ⟨o, -, rfl⟩ := List.mem_map.mp hm
      rw [optionNode_eq_wrap]
      exact Node.choiceDepth_wrapOption_le
        (Node.choiceDepthAll_le_iff.mp (ihDepth d (Nat.lt_succ_self d) (Lexeme.trim o)))

/-! ## Texts -/

/-- **Every tree that is read is tidy.** -/
theorem isTidy_ofText (maxDepth : Nat) (s : List Char) :
    (Reading.ofText maxDepth s).root.isTidy = true := by
  have hSpell := Lexeme.spellAll_ofText (Text.normalize s)
  have hTrim : Node.isTrimmed (nodesOf maxDepth (Lexeme.ofText (Text.normalize s))) = true := by
    apply isTrimmed_nodesOf
    · rw [hSpell]
      exact Text.startsBlank_normalize s
    · rw [hSpell]
      exact Text.endsBlank_normalize s
  have hTidy : Node.isTidyAll (nodesOf maxDepth (Lexeme.ofText (Text.normalize s))) = true := by
    apply isTidyAll_nodesOf
    rw [hSpell]
    exact Text.isOneLine_normalize s
  show (_ && _ && _) = true
  rw [hTrim, isJoined_nodesOf, hTidy]
  rfl

/-- **Every tree that is read obeys the child rules.** -/
theorem wellFormed_ofText (maxDepth : Nat) (s : List Char) :
    (Reading.ofText maxDepth s).root.WellFormed := by
  refine Node.allAccepted_iff.mpr fun n hn => ⟨?_, wellFormed_nodesOf n hn⟩
  rcases kind_of_mem_nodesOf hn with h | h <;> rw [h] <;> rfl

end Spintax
