import Spintax.Proofs.Braces
import Spintax.Proofs.Tidiness
import Spintax.Reading.OnePass

/-!
# Spintax — reading in one pass gives the same tree

Reading looks ahead for the end of a choice, then reads each option again from
a run that has been trimmed. The one pass takes every token once and trims the
nodes of an option, not its run. Two things connect them: a closed run can be
trimmed before it is read or after (`nodesOf_trimEnd`), and the one pass over a
closed run leaves the open choices alone and adds the nodes of the run
(`OnePass.scan_closed`).

* `endOption_nodesOf` — both ways of making an option agree;
* `OnePass.complete_scan` — a run up to the end of the text;
* `root_ofText_eq_rootOfNormal` — the whole.
-/

namespace Spintax

/-! ## Trimming a sequence -/

namespace OnePass

open Node (consText isJoined isTrimmedEnd text?)

/-- A sequence with its last node trimmed if that is a text. -/
def trimLast (ns : List Node) : List Node :=
  (trimFirst Text.trimEnd ns.reverse).reverse

/-- Trimming the first node does not see what comes after it. -/
theorem trimFirst_append (trim : List Char → List Char) {ns : List Node} (h : ns ≠ [])
    (ms : List Node) : trimFirst trim (ns ++ ms) = trimFirst trim ns ++ ms := by
  obtain ⟨n, ns, rfl⟩ := List.exists_cons_of_ne_nil h
  cases n with
  | text s =>
    rw [List.cons_append, trimFirst, trimFirst]
    split <;> rfl
  | _ => rfl

/-- Trimming the last node does not see what comes before it. -/
theorem trimLast_cons {ns : List Node} (h : ns ≠ []) (n : Node) :
    trimLast (n :: ns) = n :: trimLast ns := by
  rw [trimLast, List.reverse_cons, trimFirst_append _ (mt List.reverse_eq_nil_iff.mp h),
    List.reverse_append]
  rfl

/-- A text that comes last is trimmed at its end, and goes if it is all blank. -/
theorem trimLast_text (s : List Char) :
    trimLast [.text s] = consText (Text.trimEnd s) [] := by
  rw [trimLast, List.reverse_singleton, trimFirst]
  cases h : Text.allBlank s with
  | true =>
    rw [Text.allBlank_iff_trimEnd.mp h]
    rfl
  | false =>
    rw [Node.consText_of_ne_nil (by
      rw [Ne, ← Text.allBlank_iff_trimEnd, h]
      exact Bool.false_ne_true)]
    rfl

theorem trimLast_cons_choice (os ns : List Node) :
    trimLast (.choice os :: ns) = .choice os :: trimLast ns := by
  by_cases hnil : ns = []
  · rw [hnil]
    rfl
  · exact trimLast_cons hnil _

/-- The end of a sequence stays where it ends with no blank. -/
theorem trimLast_eq_self {ns : List Node} (hJoined : isJoined ns = true)
    (hEnd : isTrimmedEnd ns = true) : trimLast ns = ns := by
  rcases List.eq_nil_or_concat ns with rfl | ⟨xs, n, rfl⟩
  · rfl
  · rw [List.concat_eq_append] at *
    rw [trimLast, List.reverse_append, List.reverse_singleton]
    cases n with
    | text s =>
      have hs : s ≠ [] := Node.ne_nil_of_isJoined hJoined (by simp)
      have hBlank : Text.endsBlank s = false := by simpa [isTrimmedEnd, text?] using hEnd
      rw [List.singleton_append, trimFirst, Text.not_allBlank_of_endsBlank hs hBlank,
        Text.trimEnd_eq_self_iff.mpr hBlank]
      simp
    | _ => simp [trimFirst]

/-- The beginning likewise. -/
theorem trimFirst_eq_self {ns : List Node} (hJoined : isJoined ns = true)
    (hStart : ∀ s ns', ns = .text s :: ns' → Text.startsBlank s = false) :
    trimFirst Text.trimStart ns = ns := by
  cases ns with
  | nil => rfl
  | cons n ns =>
    cases n with
    | text s =>
      have hs := ((Node.isJoined_text_cons s ns).mp hJoined).1
      have hBlank := hStart s ns rfl
      rw [trimFirst, Text.not_allBlank_of_startsBlank hs hBlank,
        Text.trimStart_eq_self_iff.mpr hBlank]
      rfl
    | _ => rfl

/-- Trimming the end reaches the text in front only if nothing is left behind it. -/
theorem trimLast_consText {s : List Char} (hs : s ≠ []) {ns : List Node}
    (h : isJoined ns = true) :
    trimLast (consText s ns) =
      if trimLast ns = [] then consText (Text.trimEnd s) [] else consText s (trimLast ns) := by
  rcases Node.consText_cases hs ns with ⟨hHead, hEq⟩ | ⟨t, ns', rfl, hEq⟩
  · rw [hEq]
    -- no text comes first, so the first node is there after trimming as before
    cases ns with
    | nil => exact trimLast_text s
    | cons n ns =>
      have hCons : ∃ ms, trimLast (n :: ns) = n :: ms := by
        by_cases hnil : ns = []
        · cases n with
          | text t => exact absurd hHead (by simp [text?])
          | _ => exact ⟨[], by rw [hnil]; rfl⟩
        · exact ⟨_, trimLast_cons hnil n⟩
      obtain ⟨ms, hms⟩ := hCons
      have hHead' : (n :: ms).head?.bind text? = none := hHead
      rw [trimLast_cons (List.cons_ne_nil n ns), hms, if_neg (List.cons_ne_nil n ms),
        Node.consText_of_ne_text hs hHead']
  · rw [hEq]
    -- the joined text is trimmed at its end only if it is the last node
    by_cases hnil : ns' = []
    · subst hnil
      rw [trimLast_text, trimLast_text, Text.trimEnd_append]
      by_cases ht : Text.trimEnd t = []
      · rw [if_pos ht, ht]
        rfl
      · rw [if_neg ht, Node.consText_append, Node.consText_of_ne_nil ht,
          if_neg (List.cons_ne_nil _ _)]
    · rw [trimLast_cons hnil, trimLast_cons hnil, if_neg (List.cons_ne_nil _ _),
        Node.consText_text]

/-! ## Trimming before reading and after -/

variable {ls : List Lexeme}

/-- What trimming leaves of the last lexeme reads as its trimmed text. -/
theorem nodesOf_withoutTrailingBlank (depth : Nat) {l : Lexeme} (hTok : l.token ≠ .opening) :
    nodesOf depth l.withoutTrailingBlank.toList = consText (Text.trimEnd l.spelling) [] := by
  rw [← Lexeme.spellAll_withoutTrailingBlank]
  have hOne : ∀ m : Lexeme, m.token ≠ .opening →
      nodesOf depth [m] = consText (Lexeme.spellAll [m]) [] := by
    intro m hm
    rw [nodesOf_literal hm, nodesOf_nil, Lexeme.spellAll, List.flatMap_singleton]
  unfold Lexeme.withoutTrailingBlank
  rcases l.token.withoutTrailingBlank_cases with hw | hw | ⟨c, -, hw⟩
  · rw [hw]
    exact nodesOf_nil depth
  · rw [hw]
    exact hOne ⟨l.token, l.pos⟩ hTok
  · rw [hw]
    exact hOne ⟨.backslash, l.pos⟩ (by simp)

/-- A closed run may be trimmed at its end before it is read or after. -/
theorem nodesOf_trimEnd (depth : Nat) {ls : List Lexeme} (h : Lexeme.Closed ls) :
    nodesOf depth (Lexeme.trimEnd ls) = trimLast (nodesOf depth ls) := by
  cases depth with
  | zero =>
    rw [nodesOf, nodesOf, Lexeme.spellAll_trimEnd]
    by_cases hnil : Lexeme.spellAll ls = []
    · rw [hnil]
      rfl
    · rw [Node.consText_of_ne_nil hnil, trimLast_text]
  | succ depth =>
    induction ls, h using Lexeme.closed_induction with
    | nil =>
      rw [Lexeme.trimEnd, nodesOf_nil]
      rfl
    | literal l ls h hRest ho hc hb ih =>
      rw [nodesOf_literal ho, trimLast_consText l.spelling_ne_nil (isJoined_nodesOf _ _), ← ih]
      by_cases hnil : Lexeme.trimEnd ls = []
      · rw [if_pos (nodesOf_eq_nil.mpr hnil), Lexeme.trimEnd_cons_of_eq_nil hnil,
          nodesOf_withoutTrailingBlank _ ho]
      · rw [if_neg (mt nodesOf_eq_nil.mp hnil), Lexeme.trimEnd_cons_of_ne_nil hnil,
          nodesOf_literal ho]
    | choice l ls r h hRest ho hr ih =>
      -- trimming does not reach behind the closing brace of the choice
      have hcut := Body.ofLexemes_trimEnd hr
      rw [Lexeme.trimEnd_cons_of_isStructural (Lexeme.isStructural_of_opening ho),
        nodesOf_closed ho (by rw [hcut]), hcut, nodesOf_closed ho hr, trimLast_cons_choice, ih]
      rfl

/-- Any run may be trimmed at its beginning before it is read or after. -/
theorem nodesOf_dropWhile_isBlank (depth : Nat) (ls : List Lexeme) :
    nodesOf depth (ls.dropWhile Lexeme.isBlank) = trimFirst Text.trimStart (nodesOf depth ls) := by
  induction ls with
  | nil =>
    rw [List.dropWhile_nil, nodesOf_nil]
    rfl
  | cons l ls ih =>
    cases hl : l.isBlank with
    | true =>
      -- a blank in front goes, and with it the first character of the first text
      obtain ⟨c, hc, hTok⟩ : ∃ c, Text.isBlank c = true ∧ l.token = .plain c := by
        obtain ⟨t, pos⟩ := l
        cases t <;> simp_all [Lexeme.isBlank, Token.isBlank]
      have hSpell : l.spelling = [c] := by rw [Lexeme.spelling, hTok]; rfl
      rw [List.dropWhile_cons_of_pos hl, ih, nodesOf_literal (by simp [hTok]), hSpell]
      rcases Node.consText_cases (List.cons_ne_nil c []) (nodesOf depth ls) with
        ⟨hHead, hEq⟩ | ⟨t, ns', hNodes, hEq⟩
      · rw [hEq, trimFirst, if_pos (by simp [Text.allBlank, hc]),
          trimFirst_eq_self (isJoined_nodesOf _ _)]
        intro s ns' hNodes
        rw [hNodes] at hHead
        exact absurd hHead (by simp [text?])
      · rw [hEq, hNodes, trimFirst, trimFirst]
        simp [Text.allBlank, Text.trimStart, hc]
    | false =>
      rw [List.dropWhile_cons_of_neg (by simp [hl]), trimFirst_eq_self (isJoined_nodesOf _ _)]
      -- the first lexeme is no blank, so no text that comes first begins with one
      intro s ns' hNodes
      rw [startsBlank_of_nodesOf hNodes, ← Text.trimStart_eq_self_iff,
        ← Lexeme.spellAll_dropWhile_isBlank, List.dropWhile_cons_of_neg (by simp [hl])]

/-! ## Options -/

/-- The scan ends an option by trimming the first and the last node of its sequence. -/
theorem endOption_reverse (ns : List Node) :
    endOption ns.reverse = Node.wrapOption (trimFirst Text.trimStart (trimLast ns)) := by
  rw [endOption, ← trimLast]
  split
  · next s ns' h => rw [h, Node.wrapOption]
  · next h =>
    unfold Node.wrapOption
    split
    · next s ns' hText => exact absurd hText (h s ns')
    · rfl

/-- Both ways of making an option agree, on a closed run and on one that has
been trimmed at its end before. -/
theorem endOption_nodesOf (depth : Nat) {o : List Lexeme}
    (h : Lexeme.Closed o ∨ Lexeme.trimEnd o = o) :
    endOption (nodesOf depth o).reverse = optionNode (nodesOf depth) o := by
  -- the one pass trims at the end first, a run is trimmed there last
  have hLast : trimLast (nodesOf depth o) = nodesOf depth (Lexeme.trimEnd o) := by
    rcases h with h | h
    · exact (nodesOf_trimEnd depth h).symm
    · rw [h]
      refine trimLast_eq_self (isJoined_nodesOf _ _) (isTrimmedEnd_nodesOf depth ?_)
      rw [← Text.trimEnd_eq_self_iff, ← Lexeme.spellAll_trimEnd, h]
  rw [endOption_reverse, hLast, optionNode_eq_wrap, Lexeme.trim_eq_dropWhile_trimEnd,
    nodesOf_dropWhile_isBlank]

/-! ## Adding nodes -/

/-- Nodes put at the end of a sequence whose nodes stand last first. -/
def pushAll : List Node → List Node → List Node
  | acc, [] => acc
  | acc, .text s :: ns => pushAll (addText s acc) ns
  | acc, n :: ns => pushAll (n :: acc) ns

/-- Only a text is joined with the node before it. -/
theorem pushAll_cons {n : Node} (h : text? n = none) (acc ns : List Node) :
    pushAll acc (n :: ns) = pushAll (n :: acc) ns := by
  cases n with
  | text s => exact absurd h (by simp [text?])
  | _ => rfl

/-- Texts that are added one after the other are joined. -/
theorem addText_addText (s t : List Char) (acc : List Node) :
    addText t (addText s acc) = addText (s ++ t) acc := by
  cases acc with
  | nil => rfl
  | cons n acc => cases n <;> simp [addText]

/-- A text that is pushed is joined with a text at hand. -/
theorem pushAll_consText {s : List Char} (hs : s ≠ []) (acc ns : List Node) :
    pushAll acc (consText s ns) = pushAll (addText s acc) ns := by
  rcases Node.consText_cases hs ns with ⟨-, hEq⟩ | ⟨t, ns', rfl, hEq⟩
  · rw [hEq, pushAll]
  · rw [hEq, pushAll, pushAll, addText_addText]

/-- After any other node a text stands by itself. -/
theorem addText_of_ne_text {acc : List Node} (h : acc.head?.bind text? = none) (s : List Char) :
    addText s acc = .text s :: acc := by
  cases acc with
  | nil => rfl
  | cons n acc =>
    cases n with
    | text t => exact absurd h (by simp [text?])
    | _ => rfl

/-- Where no two texts meet, the nodes are added as they are. -/
theorem pushAll_of_joined {acc ns : List Node} (hJoined : isJoined ns = true)
    (hSeam : acc.head?.bind text? = none ∨ ns.head?.bind text? = none) :
    pushAll acc ns = ns.reverse ++ acc := by
  induction ns generalizing acc with
  | nil => rfl
  | cons n ns ih =>
    rw [List.reverse_cons, List.append_assoc, List.singleton_append]
    -- a text would join a text in front of it, and there is none
    cases n with
    | text s =>
      have hAcc := hSeam.resolve_right (by simp [text?])
      rw [pushAll, addText_of_ne_text hAcc]
      exact ih (Node.isJoined_tail hJoined) (.inr ((Node.isJoined_text_cons s ns).mp hJoined).2.1)
    | _ =>
      rw [pushAll_cons rfl]
      exact ih (Node.isJoined_tail hJoined) (.inl rfl)

/-- In a run that was read no two texts meet, so nothing is joined. -/
theorem pushAll_nodesOf (depth : Nat) (ls : List Lexeme) :
    pushAll [] (nodesOf depth ls) = (nodesOf depth ls).reverse := by
  rw [pushAll_of_joined (isJoined_nodesOf depth ls) (.inl rfl), List.append_nil]

/-! ## Reports of a trimmed run -/

/-- Of a lexeme that is no brace and no bar there is nothing to report. -/
theorem literalReport_of_not_isStructural {l : Lexeme} (h : l.isStructural = false) :
    Item.literalReport l = [] := by
  obtain ⟨t, pos⟩ := l
  cases t <;> simp_all [Item.literalReport, Lexeme.isStructural]

theorem firstBrace?_of_isBlank {l : Lexeme} (h : l.isBlank = true) :
    Lexeme.firstBrace? [l] = none := by
  obtain ⟨t, pos⟩ := l
  cases t <;> simp_all [Lexeme.isBlank, Token.isBlank, Lexeme.firstBrace?]

/-- Trimming a lexeme takes no brace from it. -/
theorem firstBrace?_withoutTrailingBlank (l : Lexeme) :
    Lexeme.firstBrace? l.withoutTrailingBlank.toList = Lexeme.firstBrace? [l] := by
  obtain ⟨t, pos⟩ := l
  cases t with
  | plain c =>
    cases hc : Text.isBlank c <;>
      simp [Lexeme.withoutTrailingBlank, Token.withoutTrailingBlank, hc, Lexeme.firstBrace?]
  | pair c =>
    cases hc : Text.isBlank c with
    | true =>
      -- a brace is no blank
      have hBrace : c ≠ '{' := by
        rintro rfl
        exact absurd hc (by decide)
      simp [Lexeme.withoutTrailingBlank, Token.withoutTrailingBlank, hc, Lexeme.firstBrace?, hBrace]
    | false => simp [Lexeme.withoutTrailingBlank, Token.withoutTrailingBlank, hc]
  | _ => rfl

/-- Trimming a run takes no brace from it. -/
theorem firstBrace?_trimEnd (ls : List Lexeme) :
    Lexeme.firstBrace? (Lexeme.trimEnd ls) = Lexeme.firstBrace? ls := by
  induction ls with
  | nil => rfl
  | cons l ls ih =>
    rw [Lexeme.firstBrace?_cons l ls, ← ih]
    by_cases hnil : Lexeme.trimEnd ls = []
    · rw [Lexeme.trimEnd_cons_of_eq_nil hnil, firstBrace?_withoutTrailingBlank, hnil]
      exact (Option.or_none).symm
    · rw [Lexeme.trimEnd_cons_of_ne_nil hnil, Lexeme.firstBrace?_cons]

variable (maxDepth depth : Nat)

/-- Leaving out blanks at the start of a run does not change what is reported. -/
theorem reportsOf_dropWhile_isBlank (ls : List Lexeme) :
    reportsOf maxDepth depth (ls.dropWhile Lexeme.isBlank) = reportsOf maxDepth depth ls := by
  induction ls with
  | nil => rfl
  | cons l ls ih =>
    cases hl : l.isBlank with
    | false => rw [List.dropWhile_cons_of_neg (by simp [hl])]
    | true =>
      -- a blank is neither a brace nor a bar, so it is reported at no depth
      have hPlain := Lexeme.not_isStructural_of_isBlank hl
      rw [List.dropWhile_cons_of_pos hl, ih]
      cases depth with
      | zero =>
        rw [reportsOf, reportsOf, Lexeme.firstBrace?_cons, firstBrace?_of_isBlank hl,
          Option.none_or]
      | succ depth =>
        have hTok : l.token ≠ .opening := by
          intro hTok
          rw [Lexeme.isStructural_of_opening hTok] at hPlain
          exact absurd hPlain (by simp)
        rw [reportsOf_literal hTok, literalReport_of_not_isStructural hPlain, List.nil_append]

/-- Trimming the end of a closed run does not change what is reported. -/
theorem reportsOf_trimEnd {ls : List Lexeme} (h : Lexeme.Closed ls) :
    reportsOf maxDepth depth (Lexeme.trimEnd ls) = reportsOf maxDepth depth ls := by
  cases depth with
  | zero => rw [reportsOf, reportsOf, firstBrace?_trimEnd]
  | succ depth =>
    induction ls, h using Lexeme.closed_induction with
    | nil => rfl
    | literal l ls h hRest ho hc hb ih =>
      have hPlain : l.isStructural = false := by simp [Lexeme.isStructural, ho, hc, hb]
      -- neither the lexeme nor what trimming leaves of it is reported
      rw [reportsOf_literal ho, literalReport_of_not_isStructural hPlain, List.nil_append, ← ih]
      by_cases hnil : Lexeme.trimEnd ls = []
      · rw [Lexeme.trimEnd_cons_of_eq_nil hnil, hnil, reportsOf_nil]
        unfold Lexeme.withoutTrailingBlank
        rcases l.token.withoutTrailingBlank_cases with hw | hw | ⟨c, -, hw⟩
        · rw [hw]
          exact reportsOf_nil _ _
        · rw [hw, Option.map_some, Option.toList, reportsOf_literal ho, reportsOf_nil,
            literalReport_of_not_isStructural hPlain]
          rfl
        · rw [hw, Option.map_some, Option.toList, reportsOf_literal (by simp), reportsOf_nil]
          rfl
      · rw [Lexeme.trimEnd_cons_of_ne_nil hnil, reportsOf_literal ho,
          literalReport_of_not_isStructural hPlain, List.nil_append]
    | choice l ls r h hRest ho hr ih =>
      have hcut := Body.ofLexemes_trimEnd hr
      rw [Lexeme.trimEnd_cons_of_isStructural (Lexeme.isStructural_of_opening ho),
        reportsOf_closed ho (by rw [hcut]), hcut, reportsOf_closed ho hr, ih]
      rfl

/-- The repairs inside an option are those of its run as it was cut. -/
theorem optionReports_eq_reportsOf {o : List Lexeme}
    (h : Lexeme.Closed o ∨ Lexeme.trimEnd o = o) :
    optionReports (reportsOf maxDepth depth) o = reportsOf maxDepth depth o := by
  rw [optionReports_reportsOf, Lexeme.trim_eq_dropWhile_trimEnd, reportsOf_dropWhile_isBlank]
  rcases h with h | h
  · exact reportsOf_trimEnd maxDepth depth h
  · rw [h]

/-- If no option of a choice nests too deep, neither does one of them by itself. -/
theorem deep_option {os : List (List Lexeme)}
    (hDeep : ∀ d ∈ os.flatMap (optionReports (reportsOf maxDepth depth)),
      d.isNestingTooDeep = false)
    {o : List Lexeme} (hMem : o ∈ os) (h : Lexeme.Closed o ∨ Lexeme.trimEnd o = o) :
    ∀ d ∈ reportsOf maxDepth depth o, d.isNestingTooDeep = false := by
  intro d hd
  rw [← optionReports_eq_reportsOf maxDepth depth h] at hd
  exact hDeep d (List.mem_flatMap.mpr ⟨o, hMem, hd⟩)

/-! ## Scanning a run -/

/-- Whether a run stays inside the innermost open choice, if there is one. -/
def Stays (cs : List OpenChoice) (ls : List Lexeme) : Prop :=
  cs = [] ∨ ∃ k, Lexeme.levelAfter 0 ls = some k

/-- A lexeme that opens nothing and leaves nothing is text. -/
theorem Stays.step_eq {cs : List OpenChoice} {l : Lexeme} {ls : List Lexeme}
    (h : Stays cs (l :: ls)) (hTok : l.token ≠ .opening) (acc : List Node) (isLast : Bool) :
    step ⟨cs, acc⟩ l.token isLast = ⟨cs, addText l.spelling acc⟩ := by
  unfold Lexeme.spelling
  cases cs with
  | nil => cases ht : l.token <;> simp_all [step]
  | cons c cs =>
    -- inside a choice, bars and closing braces would leave the option
    obtain ⟨k, hk⟩ := h.resolve_left (List.cons_ne_nil c cs)
    rw [Lexeme.levelAfter_cons] at hk
    cases ht : l.token <;> simp_all [step, Token.levelAfter]

/-- A run that stays goes on staying behind a lexeme that opens nothing. -/
theorem Stays.tail {cs : List OpenChoice} {l : Lexeme} {ls : List Lexeme}
    (h : Stays cs (l :: ls)) (hTok : l.token ≠ .opening) : Stays cs ls := by
  refine h.imp_right ?_
  rintro ⟨k, hk⟩
  exact ⟨k, (Lexeme.levelAfter_of_literal hTok hk).2.2⟩

/-- A run that stays goes on staying behind a choice that is closed. -/
theorem Stays.rest {cs : List OpenChoice} {l : Lexeme} {ls r : List Lexeme}
    (h : Stays cs (l :: ls)) (hTok : l.token = .opening)
    (hr : (Body.ofLexemes 0 ls).rest? = some r) : Stays cs r := by
  refine h.imp_right ?_
  rintro ⟨k, hk⟩
  exact ⟨k, Lexeme.levelAfter_of_choice hTok hr hk⟩

/-- A run in which no choice opens is text as long as it stays inside. -/
theorem scan_of_ne_opening {ls : List Lexeme} (hNone : ∀ l ∈ ls, l.token ≠ .opening)
    {cs : List OpenChoice} (hInside : Stays cs ls) (acc : List Node) (rest : List Token) :
    scan ⟨cs, acc⟩ (ls.map Lexeme.token ++ rest) =
      scan ⟨cs, pushAll acc (nodesOf depth ls)⟩ rest := by
  induction ls generalizing acc with
  | nil =>
    rw [nodesOf_nil]
    rfl
  | cons l ls ih =>
    have hTok := hNone l (List.mem_cons_self ..)
    have hRest := fun m hm => hNone m (List.mem_cons_of_mem l hm)
    rw [List.map_cons, List.cons_append, scan, hInside.step_eq hTok, ih hRest (hInside.tail hTok),
      nodesOf_literal hTok, pushAll_consText l.spelling_ne_nil]

/-- The one pass through a closed choice, given what it does with the options. -/
theorem scan_choice {ls r : List Lexeme} (hr : (Body.ofLexemes 0 ls).rest? = some r)
    (hScan : ∀ o ∈ (Body.ofLexemes 0 ls).options, Lexeme.Closed o → ∀ cs rest,
      scan ⟨cs, []⟩ (o.map Lexeme.token ++ rest) = scan ⟨cs, (nodesOf depth o).reverse⟩ rest)
    (before done : List Node) (cs : List OpenChoice) (rest : List Token) :
    scan ⟨⟨before, done⟩ :: cs, []⟩ (ls.map Lexeme.token ++ rest) =
      scan ⟨cs, .choice (done.reverse ++
        (Body.ofLexemes 0 ls).options.map (optionNode (nodesOf depth))) :: before⟩
        (r.map Lexeme.token ++ rest) := by
  induction ls using Body.cut_induction generalizing done with
  | last o k hk => exact absurd hr (by simp)
  | close o l r' ho hTok =>
    -- the last option ends with the brace, and the choice with it
    obtain rfl := Option.some.inj hr
    rw [List.map_append, List.append_assoc, hScan o (by simp [Body.options]) ho, List.map_cons,
      List.cons_append, scan, hTok]
    simp only [step, closeChoice, endOption_nodesOf depth (.inl ho), List.reverse_cons,
      Body.options, List.map_cons, List.map_nil]
  | next o l r' ho hTok ih =>
    rw [List.map_append, List.append_assoc, hScan o (by simp [Body.options]) ho, List.map_cons,
      List.cons_append, scan, hTok]
    -- the option is done, and the next one starts without nodes
    simp only [step, endOption_nodesOf depth (.inl ho)]
    rw [ih hr (fun x hx => hScan x (List.mem_cons_of_mem o hx))]
    simp [Body.options]

/-- **A closed run adds its nodes** and leaves the open choices as they are. -/
theorem scan_closed {ls : List Lexeme} (h : Lexeme.Closed ls)
    (hDeep : ∀ d ∈ reportsOf maxDepth depth ls, d.isNestingTooDeep = false)
    (cs : List OpenChoice) (acc : List Node) (rest : List Token) :
    scan ⟨cs, acc⟩ (ls.map Lexeme.token ++ rest) =
      scan ⟨cs, pushAll acc (nodesOf depth ls)⟩ rest := by
  induction depth generalizing ls cs acc rest with
  | zero =>
    -- at the depth limit everything is text for both readings
    exact scan_of_ne_opening 0 (ne_opening_of_deep hDeep) (.inr ⟨0, h⟩) acc rest
  | succ depth ihDepth =>
    induction ls, h using Lexeme.closed_induction generalizing acc with
    | nil =>
      rw [nodesOf_nil]
      rfl
    | literal l ls h hRest ho hc hb ih =>
      have hInside : Stays cs (l :: ls) := .inr ⟨0, h⟩
      rw [reportsOf_literal ho] at hDeep
      rw [List.map_cons, List.cons_append, scan, hInside.step_eq ho,
        ih (fun d hd => hDeep d (List.mem_append_right _ hd)), nodesOf_literal ho,
        pushAll_consText l.spelling_ne_nil]
    | choice l ls r h hRest ho hr ih =>
      rw [reportsOf_closed ho hr] at hDeep
      -- an option is read one level deeper, and nothing in it is too deep either
      have hOption : ∀ o ∈ (Body.ofLexemes 0 ls).options, Lexeme.Closed o → ∀ cs rest,
          scan ⟨cs, []⟩ (o.map Lexeme.token ++ rest) =
            scan ⟨cs, (nodesOf depth o).reverse⟩ rest := by
        intro o hMem hClosed cs rest
        have hDeep := deep_option maxDepth depth
          (fun d hd => hDeep d (List.mem_append_left _ hd)) hMem (.inl hClosed)
        rw [ihDepth hClosed hDeep, pushAll_nodesOf]
      have hNotLast : (ls.map Lexeme.token ++ rest).isEmpty = false := by
        simp [Body.ne_nil_of_rest hr]
      rw [List.map_cons, List.cons_append, scan, ho, step, hNotLast, if_neg Bool.false_ne_true,
        scan_choice depth hr hOption, ih (fun d hd => hDeep d (List.mem_append_right _ hd)),
        nodesOf_closed ho hr, pushAll_cons rfl]
      rfl

/-! ## Up to the end of the text -/

/-- The end of the text. -/
def State.complete (st : State) : List Node :=
  finish st.choices st.nodes

/-- The one pass through a choice that is not closed, given what it does with
the options. -/
theorem complete_choice {ls : List Lexeme} (hr : (Body.ofLexemes 0 ls).rest? = none)
    (hTrim : Lexeme.trimEnd ls = ls)
    (hScan : ∀ o ∈ (Body.ofLexemes 0 ls).options, Lexeme.Closed o → ∀ cs rest,
      scan ⟨cs, []⟩ (o.map Lexeme.token ++ rest) = scan ⟨cs, (nodesOf depth o).reverse⟩ rest)
    (hLast : ∀ o ∈ (Body.ofLexemes 0 ls).options, Lexeme.trimEnd o = o →
      (∃ k, Lexeme.levelAfter 0 o = some k) → ∀ cs,
        (scan ⟨cs, []⟩ (o.map Lexeme.token)).complete = finish cs (nodesOf depth o).reverse)
    (before done : List Node) (cs : List OpenChoice) :
    (scan ⟨⟨before, done⟩ :: cs, []⟩ (ls.map Lexeme.token)).complete =
      finish cs (.choice (done.reverse ++
        (Body.ofLexemes 0 ls).options.map (optionNode (nodesOf depth))) :: before) := by
  induction ls using Body.cut_induction generalizing done with
  | last o k hk =>
    -- the end of the text comes inside this option and closes the choice
    rw [hLast o (by simp [Body.options]) hTrim ⟨k, hk⟩, finish, closeChoice,
      endOption_nodesOf depth (.inr hTrim)]
    simp [Body.options]
  | close o l r' ho hTok => exact absurd hr (by simp)
  | next o l r' ho hTok ih =>
    -- the option ends before the text does, so the end is that of a later one
    have hTrim := Lexeme.trimEnd_of_suffix hTrim
      ((List.suffix_cons l r').trans (List.suffix_append o _))
    rw [List.map_append, hScan o (by simp [Body.options]) ho, List.map_cons, scan, hTok]
    simp only [step, endOption_nodesOf depth (.inl ho)]
    rw [ih hr hTrim (fun x hx => hScan x (List.mem_cons_of_mem o hx))
      (fun x hx => hLast x (List.mem_cons_of_mem o hx))]
    simp [Body.options]

/-- **A run up to the end of the text adds its nodes**, and the choices that it
leaves open end with it. -/
theorem complete_scan {ls : List Lexeme} (hTrim : Lexeme.trimEnd ls = ls)
    (hDeep : ∀ d ∈ reportsOf maxDepth depth ls, d.isNestingTooDeep = false)
    {cs : List OpenChoice} (hInside : Stays cs ls) (acc : List Node) :
    (scan ⟨cs, acc⟩ (ls.map Lexeme.token)).complete =
      finish cs (pushAll acc (nodesOf depth ls)) := by
  induction depth generalizing ls cs acc with
  | zero =>
    -- as for a closed run, but here bars and closing braces may stand at the root
    have hNone := ne_opening_of_deep hDeep
    have hScan := scan_of_ne_opening 0 hNone hInside acc []
    rw [List.append_nil] at hScan
    rw [hScan]
    rfl
  | succ depth ihDepth =>
    -- what the one pass does with the options of a choice
    have hClosed : ∀ {os : List (List Lexeme)},
        (∀ d ∈ os.flatMap (optionReports (reportsOf maxDepth depth)),
          d.isNestingTooDeep = false) →
        ∀ o ∈ os, Lexeme.Closed o → ∀ cs rest,
          scan ⟨cs, []⟩ (o.map Lexeme.token ++ rest) =
            scan ⟨cs, (nodesOf depth o).reverse⟩ rest := by
      intro os hDeep o hMem ho cs rest
      rw [scan_closed maxDepth depth ho (deep_option maxDepth depth hDeep hMem (.inl ho)),
        pushAll_nodesOf]
    induction ls using Lexeme.run_induction generalizing acc with
    | nil =>
      rw [nodesOf_nil]
      rfl
    | literal l ls ho ih =>
      rw [reportsOf_literal ho] at hDeep
      rw [List.map_cons, scan, hInside.step_eq ho,
        ih (Lexeme.trimEnd_of_suffix hTrim (List.suffix_cons l ls))
          (fun d hd => hDeep d (List.mem_append_right _ hd)) (hInside.tail ho),
        nodesOf_literal ho, pushAll_consText l.spelling_ne_nil]
    | stray l ho =>
      -- a brace at the very end is text
      rw [List.map_singleton, scan, ho, step, List.isEmpty_nil, if_pos rfl, nodesOf_singleton,
        pushAll, pushAll, Lexeme.spelling, ho]
      rfl
    | closed l ls r ho hr ih =>
      rw [reportsOf_closed ho hr] at hDeep
      have hNotLast : (ls.map Lexeme.token).isEmpty = false := by
        simp [Body.ne_nil_of_rest hr]
      have hChoice := scan_choice depth hr
        (hClosed fun d hd => hDeep d (List.mem_append_left _ hd)) acc [] cs []
      rw [List.append_nil, List.append_nil] at hChoice
      rw [List.map_cons, scan, ho, step, hNotLast, if_neg Bool.false_ne_true, hChoice,
        ih (Lexeme.trimEnd_of_suffix hTrim (Body.suffix_cons_of_rest hr l))
          (fun d hd => hDeep d (List.mem_append_right _ hd)) (hInside.rest ho hr),
        nodesOf_closed ho hr, pushAll_cons rfl]
      rfl
    | unclosed l ls ho hne hr =>
      rw [reportsOf_unclosed ho hne hr] at hDeep
      have hDeep := fun d hd => hDeep d (List.mem_cons_of_mem _ hd)
      have hNotLast : (ls.map Lexeme.token).isEmpty = false := by
        rw [List.isEmpty_eq_false_iff, Ne, List.map_eq_nil_iff]
        exact hne
      -- only the last option reaches the end; it may hold open choices of its own
      have hLast : ∀ o ∈ (Body.ofLexemes 0 ls).options, Lexeme.trimEnd o = o →
          (∃ k, Lexeme.levelAfter 0 o = some k) → ∀ cs,
            (scan ⟨cs, []⟩ (o.map Lexeme.token)).complete =
              finish cs (nodesOf depth o).reverse := by
        intro o hMem ho hk cs
        rw [ihDepth ho (deep_option maxDepth depth hDeep hMem (.inr ho)) (.inr hk),
          pushAll_nodesOf]
      rw [List.map_cons, scan, ho, step, hNotLast, if_neg Bool.false_ne_true,
        complete_choice depth hr (Lexeme.trimEnd_of_suffix hTrim (List.suffix_cons l ls))
          (hClosed hDeep) hLast,
        nodesOf_unclosed ho hne hr, pushAll_cons rfl]
      rfl

/-- The one pass over a text without blanks at its end. -/
theorem complete_ofText {maxDepth : Nat} {s : List Char} (hEnd : Text.endsBlank s = false)
    (hDeep : ∀ d ∈ reportsOf maxDepth maxDepth (Lexeme.ofText s), d.isNestingTooDeep = false) :
    (scan ⟨[], []⟩ (Token.ofText s)).complete = nodesOf maxDepth (Lexeme.ofText s) := by
  have hScan := complete_scan maxDepth maxDepth (Lexeme.trimEnd_ofText hEnd) hDeep (.inl rfl) []
  rwa [Lexeme.ofText, Lexeme.map_token_place, ← Lexeme.ofText, pushAll_nodesOf, finish,
    List.reverse_reverse] at hScan

end OnePass

/-- **Reading in one pass gives the tree of a text**, at every depth that is
enough for it. -/
theorem root_ofText_eq_rootOfNormal {maxDepth : Nat} {s : List Char}
    (hDeep : ∀ d ∈ (Reading.ofText maxDepth s).diagnostics, d.isNestingTooDeep = false) :
    (Reading.ofText maxDepth s).root = OnePass.rootOfNormal (Text.normalize s) :=
  congrArg Node.root (OnePass.complete_ofText (Text.endsBlank_normalize s) hDeep).symm

/-- A brace that closes nothing, choices one inside the other, and a stray brace at the
end. -/
theorem rootOfNormal_nested :
    OnePass.rootOfNormal (Text.normalize ['}', '{', ' ', 'b', '|', '{', 'c', '}', ' ', '}', '{']) =
      .root [.text ['}'], .choice [.option ['b'] [], .option [] [.choice [.option ['c'] []]]],
        .text ['{']] := by
  have hDeep : ∀ d ∈ (Reading.ofText 2
      ['}', '{', ' ', 'b', '|', '{', 'c', '}', ' ', '}', '{']).diagnostics,
      d.isNestingTooDeep = false := by decide +kernel
  exact (root_ofText_eq_rootOfNormal hDeep).symm.trans (by decide +kernel)

end Spintax
