import Spintax.Node.Source
import Spintax.Proofs.OnePass
import Spintax.Proofs.Tokens

/-!
# Spintax — trees that read back

The source of a tree is a text, and reading it gives a tree again. It is the
same tree when nothing in the literals is taken for structure: the tree is
*legible*, which is to say that every literal inside an option is made of plain
characters and whole pairs. At the root more may stand, for there bars and
closing braces are text, and so is a brace or a backslash at the very end.

* `normalize_source` — the source of a tidy tree is a normal text;
* `OnePass.scan_readable` — the one pass over the source of a node adds the node;
* `root_ofText_source` — a tidy, well-formed and legible tree is read back.
-/

namespace Spintax

/-! ## Legible trees -/

/-- A token that is text wherever it stands. -/
def Token.isLiteral : Token → Bool
  | .plain _ => true
  | .pair _ => true
  | _ => false

theorem Token.isLiteral_of_ne {t : Token} (hOpening : t ≠ .opening) (hClosing : t ≠ .closing)
    (hBar : t ≠ .bar) (hBackslash : t ≠ .backslash) : t.isLiteral = true := by
  cases t <;> simp_all [isLiteral]

/-- Whether a text is made of plain characters and whole pairs. -/
def Text.isLegible (s : List Char) : Bool :=
  (Token.ofText s).all Token.isLiteral

namespace Node

mutual

/-- Whether the literals of a tree are text where they stand inside options. -/
def isLegible (inOption : Bool) : Node → Bool
  | .text content => !inOption || Text.isLegible content
  | .option content children => Text.isLegible content && isLegibleAll true children
  | .choice children => isLegibleAll inOption children
  | .root children => isLegibleAll false children

/-- The same for each tree of a list. -/
def isLegibleAll (inOption : Bool) : List Node → Bool
  | [] => true
  | n :: ns => isLegible inOption n && isLegibleAll inOption ns

end

/-- A list of nodes is legible if each of its nodes is. -/
theorem isLegibleAll_iff {inOption : Bool} {ns : List Node} :
    isLegibleAll inOption ns = true ↔ ∀ n ∈ ns, isLegible inOption n = true := by
  induction ns with
  | nil => simp [isLegibleAll]
  | cons n ns ih => simp [isLegibleAll, ih]

/-- Induction on a tree, with what holds of the children of a node. -/
@[elab_as_elim]
theorem tree_induction {motive : Node → Prop} (text : ∀ s, motive (.text s))
    (option : ∀ s ns, (∀ n ∈ ns, motive n) → motive (.option s ns))
    (choice : ∀ ns, (∀ n ∈ ns, motive n) → motive (.choice ns))
    (root : ∀ ns, (∀ n ∈ ns, motive n) → motive (.root ns)) (n : Node) : motive n :=
  @Node.rec motive (fun ns => ∀ n ∈ ns, motive n) text option choice root (by simp)
    (fun _ _ hn hns => List.forall_mem_cons.mpr ⟨hn, hns⟩) n

/-- Induction on a tree of which every literal has a property. -/
theorem literal_induction {P : List Char → Prop} {motive : Node → Prop}
    (text : ∀ s, P s → motive (.text s))
    (option : ∀ s ns, P s → (∀ n ∈ ns, motive n) → motive (.option s ns))
    (choice : ∀ ns, (∀ n ∈ ns, motive n) → motive (.choice ns))
    (root : ∀ ns, (∀ n ∈ ns, motive n) → motive (.root ns)) {n : Node}
    (h : ∀ s ∈ n.literals, P s) : motive n := by
  have hAll : ∀ {ns : List Node}, (∀ n ∈ ns, (∀ s ∈ n.literals, P s) → motive n) →
      (∀ s ∈ ns.flatMap literals, P s) → ∀ n ∈ ns, motive n := by
    intro ns ih h n hn
    exact ih n hn fun s hs => h s (List.mem_flatMap.mpr ⟨n, hn, hs⟩)
  induction n using tree_induction with
  | text s => exact text s (h s List.mem_cons_self)
  | option s ns ih =>
    rw [literals_option, List.forall_mem_cons] at h
    exact option s ns h.1 (hAll ih h.2)
  | choice ns ih =>
    rw [literals_choice] at h
    exact choice ns (hAll ih h)
  | root ns ih =>
    rw [literals_root] at h
    exact root ns (hAll ih h)

end Node

/-! ## The source of a tidy tree -/

/-- Nodes that are written in one line each are so together. -/
theorem Text.isOneLine_flatMap {ns : List Node} (h : ∀ n ∈ ns, isOneLine n.source = true) :
    isOneLine (ns.flatMap Node.source) = true := by
  induction ns with
  | nil => rfl
  | cons n ns ih =>
    rw [List.forall_mem_cons] at h
    rw [List.flatMap_cons, isOneLine_append, h.1, ih h.2]
    rfl

/-- Induction on texts with bars between them, the last text apart: no bar follows
it. -/
@[elab_as_elim]
theorem Text.bars_induction {motive : List (List Char) → List Char → Prop} (nil : motive [] [])
    (last : ∀ s, motive [s] s)
    (bar : ∀ s ss, motive ss (['|'].intercalate ss) →
      motive (s :: ss) (s ++ '|' :: ['|'].intercalate ss))
    (ss : List (List Char)) : motive ss (['|'].intercalate ss) := by
  induction ss with
  | nil => exact nil
  | cons s ss ih =>
    cases ss with
    | nil =>
      rw [List.intercalate_singleton]
      exact last s
    | cons t ss =>
      rw [List.intercalate_cons_cons, List.append_assoc, List.singleton_append]
      exact bar s (t :: ss) ih

/-- Texts that are in one line each are so with bars between them. -/
theorem Text.isOneLine_intercalate {ss : List (List Char)} (h : ∀ s ∈ ss, isOneLine s = true) :
    isOneLine (['|'].intercalate ss) = true := by
  induction ss using bars_induction with
  | nil => rfl
  | last s => exact h s List.mem_cons_self
  | bar s ss ih =>
    rw [List.forall_mem_cons] at h
    have hBar : isOneLine ('|' :: ['|'].intercalate ss) = true := ih h.2
    rw [isOneLine_append, h.1, hBar]
    rfl

/-- A tidy tree is written in one line. -/
theorem Node.isOneLine_source {n : Node} (h : n.isTidy = true) :
    Text.isOneLine n.source = true := by
  induction n using tree_induction with
  | text s => exact h
  | option s ns ih =>
    rw [isTidy, Bool.and_eq_true, Bool.and_eq_true, Bool.and_eq_true] at h
    obtain ⟨⟨⟨hLine, -⟩, -⟩, hAll⟩ := h
    rw [source_option, Text.isOneLine_append, hLine,
      Text.isOneLine_flatMap fun n hn => ih n hn (isTidyAll_iff.mp hAll n hn)]
    rfl
  | choice ns ih =>
    rw [isTidy, Bool.and_eq_true] at h
    have hInside : Text.isOneLine (['|'].intercalate (ns.map source)) = true := by
      refine Text.isOneLine_intercalate fun s hs => ?_
      obtain ⟨n, hn, rfl⟩ := List.mem_map.mp hs
      exact ih n hn (isTidyAll_iff.mp h.2 n hn)
    rw [source_choice, ← List.cons_append, Text.isOneLine_append, Bool.and_eq_true]
    exact ⟨hInside, rfl⟩
  | root ns ih =>
    rw [isTidy, Bool.and_eq_true] at h
    rw [source_root]
    exact Text.isOneLine_flatMap fun n hn => ih n hn (isTidyAll_iff.mp h.2 n hn)

/-- **The source of a tidy root is a normal text.** -/
theorem normalize_source {ns : List Node} (hTidy : (Node.root ns).isTidy = true)
    (hKind : ∀ n ∈ ns, n.kind = .text ∨ n.kind = .choice) :
    Text.normalize (Node.root ns).source = (Node.root ns).source := by
  have hLine := Node.isOneLine_source hTidy
  rw [Node.isTidy, Bool.and_eq_true, Bool.and_eq_true, Node.isTrimmed, Bool.and_eq_true] at hTidy
  obtain ⟨⟨⟨hFirst, hLast⟩, hJoined⟩, -⟩ := hTidy
  refine Text.normalize_eq_self hLine ?_ ?_
  · rw [Node.source_root]
    cases ns with
    | nil => rfl
    | cons n ns =>
      rw [List.flatMap_cons]
      -- the source begins with the first text, or with the brace of a choice
      rcases hKind n (List.mem_cons_self ..) with hn | hn
      · cases n with
        | text s =>
          have hs := ((Node.isJoined_text_cons s ns).mp hJoined).1
          rw [Node.source_text, Text.startsBlank_append hs]
          simpa [Node.text?] using hFirst
        | _ => exact absurd hn (by simp)
      · cases n with
        | choice os =>
          rw [Node.source_choice]
          rfl
        | _ => exact absurd hn (by simp)
  · rw [Node.source_root]
    rcases List.eq_nil_or_concat ns with rfl | ⟨init, n, hns⟩
    · rfl
    · rw [List.concat_eq_append] at hns
      subst hns
      rw [List.flatMap_append, List.flatMap_singleton]
      -- it ends likewise
      rcases hKind n (by simp) with hn | hn
      · cases n with
        | text s =>
          have hs : s ≠ [] := Node.ne_nil_of_isJoined hJoined (by simp)
          rw [Node.source_text, Text.endsBlank_append _ hs]
          simpa [Node.isTrimmedEnd, Node.text?] using hLast
        | _ => exact absurd hn (by simp)
      · cases n with
        | choice os =>
          rw [Node.source_choice, ← List.cons_append, ← List.append_assoc,
            Text.endsBlank_append _ (List.cons_ne_nil _ _)]
          rfl
        | _ => exact absurd hn (by simp)

/-! ## What reads back inside an option -/

namespace Node

/-- A node whose source reads as the node inside an option. -/
structure Readable (n : Node) : Prop where
  tidy : isTidy n = true
  wellFormed : WellFormed n
  legible : isLegible true n = true

/-- What a readable option is made of: a legible content, and texts and choices that are
readable themselves. -/
theorem Readable.of_option {s : List Char} {ns : List Node} (h : Readable (.option s ns)) :
    Text.isLegible s = true ∧ isTidyOption s ns = true ∧ isJoined ns = true ∧
      ∀ n ∈ ns, Readable n ∧ (n.kind = .text ∨ n.kind = .choice) := by
  obtain ⟨hTidy, hWell, hLegible⟩ := h
  rw [isTidy, Bool.and_eq_true, Bool.and_eq_true, Bool.and_eq_true] at hTidy
  obtain ⟨⟨⟨-, hOption⟩, hJoined⟩, hAll⟩ := hTidy
  rw [isLegible, Bool.and_eq_true] at hLegible
  refine ⟨hLegible.1, hOption, hJoined, fun n hn => ?_⟩
  obtain ⟨hAccepts, hWell⟩ := allAccepted_iff.mp hWell n hn
  refine ⟨⟨isTidyAll_iff.mp hAll n hn, hWell, isLegibleAll_iff.mp hLegible.2 n hn⟩, ?_⟩
  cases n with
  | text s => exact .inl rfl
  | choice os => exact .inr rfl
  | _ => exact absurd hAccepts (by simp [Kind.accepts])

/-- What a readable choice is made of: one readable option or more. -/
theorem Readable.of_choice {os : List Node} (h : Readable (.choice os)) :
    os ≠ [] ∧ ∀ o ∈ os, Readable o ∧ o.kind = .option := by
  obtain ⟨hTidy, hWell, hLegible⟩ := h
  rw [isTidy, Bool.and_eq_true] at hTidy
  refine ⟨by simpa using hTidy.1, fun o ho => ?_⟩
  obtain ⟨hAccepts, hWell⟩ := allAccepted_iff.mp hWell o ho
  refine ⟨⟨isTidyAll_iff.mp hTidy.2 o ho, hWell, isLegibleAll_iff.mp hLegible o ho⟩, ?_⟩
  cases o with
  | option s ns => rfl
  | _ => exact absurd hAccepts (by simp [Kind.accepts])

end Node

theorem Text.isLegible_iff {s : List Char} :
    isLegible s = true ↔ ∀ t ∈ Token.ofText s, t.isLiteral = true :=
  List.all_eq_true

/-- A legible literal has no token that means anything. -/
theorem Text.not_mem_of_isLegible {s : List Char} (h : isLegible s = true) {t : Token}
    (ht : t.isLiteral = false) : t ∉ Token.ofText s := by
  intro hMem
  rw [isLegible_iff.mp h t hMem] at ht
  exact absurd ht (by simp)

/-- Texts without lone backslashes have none with bars between them. -/
theorem Token.backslash_not_mem_intercalate {ss : List (List Char)}
    (h : ∀ s ∈ ss, .backslash ∉ ofText s) : .backslash ∉ ofText (['|'].intercalate ss) := by
  induction ss using Text.bars_induction with
  | nil => simp [ofText]
  | last s => exact h s List.mem_cons_self
  | bar s ss ih =>
    rw [List.forall_mem_cons] at h
    rw [ofText_append h.1, ofText_cons_of_ne (by decide), List.mem_append, List.mem_cons, not_or,
      not_or]
    exact ⟨h.1, by decide, ih h.2⟩

/-- Nodes that are written without lone backslashes have none together. -/
theorem Token.backslash_not_mem_flatMap {ns : List Node}
    (h : ∀ n ∈ ns, .backslash ∉ ofText n.source) :
    .backslash ∉ ofText (ns.flatMap Node.source) := by
  induction ns with
  | nil => simp [ofText]
  | cons n ns ih =>
    rw [List.forall_mem_cons] at h
    rw [List.flatMap_cons, ofText_append h.1, List.mem_append, not_or]
    exact ⟨h.1, ih h.2⟩

/-- A readable node below the root is written without a lone backslash. -/
theorem Node.Readable.backslash_not_mem {n : Node} (h : n.Readable) (hRoot : n.kind ≠ .root) :
    .backslash ∉ Token.ofText n.source := by
  induction n using Node.tree_induction with
  | text s => exact Text.not_mem_of_isLegible h.legible rfl
  | option s ns ih =>
    obtain ⟨hLegible, -, -, hChildren⟩ := h.of_option
    have hLone := Text.not_mem_of_isLegible hLegible (t := .backslash) rfl
    have hRest : .backslash ∉ Token.ofText (ns.flatMap Node.source) := by
      refine Token.backslash_not_mem_flatMap fun n hn => ?_
      obtain ⟨hn', hKind⟩ := hChildren n hn
      refine ih n hn hn' ?_
      rcases hKind with hKind | hKind <;> simp [hKind]
    rw [Node.source_option, Token.ofText_append hLone, List.mem_append, not_or]
    exact ⟨hLone, hRest⟩
  | choice os ih =>
    obtain ⟨-, hOptions⟩ := h.of_choice
    have hInside : .backslash ∉ Token.ofText (['|'].intercalate (os.map Node.source)) := by
      refine Token.backslash_not_mem_intercalate fun s hs => ?_
      obtain ⟨o, ho, rfl⟩ := List.mem_map.mp hs
      obtain ⟨ho', hKind⟩ := hOptions o ho
      exact ih o ho ho' (by simp [hKind])
    rw [Node.source_choice, Token.ofText_cons_of_ne (by decide), Token.ofText_append hInside,
      List.mem_cons, List.mem_append, not_or, not_or]
    exact ⟨by decide, hInside, by decide⟩
  | root ns ih => exact absurd rfl hRoot

/-! ## The one pass over a source -/

namespace OnePass

open Node (consText consText_nil isJoined isTrimmed isTrimmedEnd)

/-- The one pass over the source of the node adds the node. -/
def AddsNode (n : Node) : Prop :=
  ∀ cs acc rest, scan ⟨cs, acc⟩ (Token.ofText n.source ++ rest) = scan ⟨cs, pushAll acc [n]⟩ rest

/-- The one pass over the source of the option ends with nodes that make the
option. -/
def EndsAs (n : Node) : Prop :=
  ∃ nodes, endOption nodes = n ∧
    ∀ cs rest, scan ⟨cs, []⟩ (Token.ofText n.source ++ rest) = scan ⟨cs, nodes⟩ rest

/-- Literals open nothing, so a run of them is closed. -/
theorem closed_of_isLiteral {ls : List Lexeme} (h : ∀ l ∈ ls, l.token.isLiteral = true) :
    Lexeme.Closed ls := by
  induction ls with
  | nil => rfl
  | cons l ls ih =>
    rw [List.forall_mem_cons] at h
    have hLevel : l.token.levelAfter 0 = some 0 := by
      cases ht : l.token <;> simp_all [Token.isLiteral, Token.levelAfter]
    rw [Lexeme.Closed, Lexeme.levelAfter_cons, hLevel]
    exact ih h.2

/-- A text without braces that open, inside a choice a legible one. -/
theorem scan_text {s : List Char} (hs : s ≠ []) {cs : List OpenChoice}
    (hOpening : .opening ∉ Token.ofText s) (hInside : cs = [] ∨ Text.isLegible s = true)
    (acc : List Node) (rest : List Token) :
    scan ⟨cs, acc⟩ (Token.ofText s ++ rest) = scan ⟨cs, addText s acc⟩ rest := by
  have hMap : (Lexeme.ofText s).map Lexeme.token = Token.ofText s := Lexeme.map_token_place 0 _
  have hNone : ∀ l ∈ Lexeme.ofText s, l.token ≠ .opening := by
    intro l hl hTok
    rw [← hMap, ← hTok] at hOpening
    exact hOpening (List.mem_map_of_mem hl)
  have hStays : Stays cs (Lexeme.ofText s) := by
    refine hInside.imp_right fun hLegible => ⟨0, closed_of_isLiteral fun l hl => ?_⟩
    rw [Text.isLegible_iff, ← hMap] at hLegible
    exact hLegible _ (List.mem_map_of_mem hl)
  -- the text is read as a run at the depth limit, where nothing is cut
  have hNil : Lexeme.ofText s ≠ [] := by
    intro hNil
    rw [← Lexeme.spellAll_ofText s, hNil] at hs
    exact hs rfl
  have hScan := scan_of_ne_opening 0 hNone hStays acc rest
  rwa [hMap, nodesOf_zero hNil, Lexeme.spellAll_ofText] at hScan

theorem pushAll_cons_eq (acc : List Node) (n : Node) (ns : List Node) :
    pushAll acc (n :: ns) = pushAll (pushAll acc [n]) ns := by
  cases n <;> rfl

/-- If reading the source of each node adds the node, reading all of them adds them
all. -/
theorem scan_flatMap {ns : List Node} (h : ∀ n ∈ ns, AddsNode n)
    (hLone : ∀ n ∈ ns, .backslash ∉ Token.ofText n.source) (cs : List OpenChoice)
    (acc : List Node) (rest : List Token) :
    scan ⟨cs, acc⟩ (Token.ofText (ns.flatMap Node.source) ++ rest) =
      scan ⟨cs, pushAll acc ns⟩ rest := by
  induction ns generalizing acc with
  | nil => rfl
  | cons n ns ih =>
    rw [List.forall_mem_cons] at h hLone
    rw [List.flatMap_cons, Token.ofText_append hLone.1, List.append_assoc, h.1,
      ih h.2 hLone.2, ← pushAll_cons_eq]

/-- The options between the braces of a choice, and its closing brace. -/
theorem scan_intercalate {os : List Node} (hne : os ≠ []) (h : ∀ o ∈ os, EndsAs o)
    (hLone : ∀ o ∈ os, .backslash ∉ Token.ofText o.source) (before done : List Node)
    (cs : List OpenChoice) (rest : List Token) :
    scan ⟨⟨before, done⟩ :: cs, []⟩
        (Token.ofText (['|'].intercalate (os.map Node.source)) ++ .closing :: rest) =
      scan ⟨cs, .choice (done.reverse ++ os) :: before⟩ rest := by
  induction os generalizing done with
  | nil => exact absurd rfl hne
  | cons o os ih =>
    rw [List.forall_mem_cons] at h hLone
    obtain ⟨⟨nodes, hEnd, hScan⟩, h⟩ := h
    -- behind the last option stands the closing brace, behind any other a bar
    cases os with
    | nil =>
      have hOne : ['|'].intercalate ([o].map Node.source) = o.source := by
        simp [List.intercalate]
      -- the last option, and the brace that closes the choice
      rw [hOne, hScan, scan]
      simp only [step, closeChoice, hEnd, List.reverse_cons]
    | cons o' os =>
      have hRest := ih (List.cons_ne_nil o' os) h hLone.2 (o :: done)
      have hBar : ∀ s, Token.ofText ('|' :: s) = .bar :: Token.ofText s := fun s =>
        Token.ofText_cons_of_ne (by decide) s
      rw [List.map_cons, List.map_cons, List.intercalate_cons_cons, List.append_assoc,
        List.singleton_append, Token.ofText_append hLone.1, List.append_assoc, hScan, hBar,
        List.cons_append, scan, ← List.map_cons]
      simp only [step, hEnd]
      rw [hRest, List.reverse_cons, List.append_assoc, List.singleton_append]

/-- A text may come in front of nodes among which no two texts meet. -/
theorem isJoined_consText_of_isJoined {s : List Char} {ns : List Node} (h : isJoined ns = true) :
    isJoined (consText s ns) = true := by
  by_cases hs : s = []
  · rw [hs, consText_nil]
    exact h
  · exact Node.isJoined_consText hs h

/-- Nothing is left to trim in a tidy option. -/
theorem endOption_of_isTidyOption {s : List Char} {ns : List Node}
    (hTidy : Node.isTidyOption s ns = true) (hJoined : isJoined ns = true) :
    endOption (consText s ns).reverse = .option s ns := by
  rw [endOption_reverse]
  -- a literal alone is trimmed; in front of a choice only its beginning is
  cases ns with
  | nil =>
    have hTrim : Text.trim s = s := by simpa [Node.isTidyOption] using hTidy
    have hStart : Text.startsBlank s = false := by
      rw [← hTrim]
      exact Text.startsBlank_trim s
    have hEnd : Text.endsBlank s = false := by
      rw [← hTrim]
      exact Text.endsBlank_trim s
    by_cases hs : s = []
    · rw [hs]
      rfl
    · rw [Node.consText_of_ne_nil hs, trimLast_text, Text.trimEnd_eq_self_iff.mpr hEnd,
        Node.consText_of_ne_nil hs, trimFirst, Text.not_allBlank_of_startsBlank hs hStart,
        Text.trimStart_eq_self_iff.mpr hStart]
      rfl
  | cons n ns =>
    rw [Node.isTidyOption] at hTidy
    simp only [Bool.and_eq_true, Bool.not_eq_true', beq_iff_eq] at hTidy
    obtain ⟨⟨⟨hKind, hStart⟩, hBlank⟩, hEnd⟩ := hTidy
    cases n with
    | choice os =>
      have hFilter : (Node.choice os :: ns).filter (fun m => !m.isBlankText) =
          .choice os :: ns := by
        rw [Node.filter_cons_of_ne_text rfl, List.filter_eq_self.mpr (List.all_eq_true.mp hBlank)]
      by_cases hs : s = []
      · rw [hs, consText_nil, trimLast_eq_self hJoined hEnd]
        exact congrArg (Node.option []) hFilter
      · have hText : consText s (.choice os :: ns) = .text s :: .choice os :: ns :=
          Node.consText_of_ne_text hs rfl
        rw [hText, trimLast_cons (List.cons_ne_nil _ _), trimLast_eq_self hJoined hEnd, trimFirst,
          Text.not_allBlank_of_startsBlank hs hStart, Text.trimStart_eq_self_iff.mpr hStart]
        exact congrArg (Node.option s) hFilter
    | _ => exact absurd hKind (by simp)

/-- **The one pass over the source of a readable node** adds the node to a
sequence, or ends as the option that it is. -/
theorem scan_readable {n : Node} (h : n.Readable) (hRoot : n.kind ≠ .root) :
    (n.kind = .option → EndsAs n) ∧ (n.kind ≠ .option → n ≠ .text [] → AddsNode n) := by
  induction n using Node.tree_induction with
  | text s =>
    refine ⟨by simp, fun _ hs cs acc rest => ?_⟩
    have hOpening := Text.not_mem_of_isLegible h.legible (t := .opening) rfl
    exact scan_text (fun hnil => hs (by rw [hnil])) hOpening (.inr h.legible) acc rest
  | option s ns ih =>
    refine ⟨fun _ => ?_, fun hKind => absurd rfl hKind⟩
    obtain ⟨hLegible, hOption, hJoined, hChildren⟩ := h.of_option
    -- the children are texts and choices, and each adds itself
    have hKind : ∀ n ∈ ns, n.kind ≠ .root ∧ n.kind ≠ .option := by
      intro n hn
      rcases (hChildren n hn).2 with hKind | hKind <;> simp [hKind]
    have hAdds : ∀ n ∈ ns, AddsNode n := by
      intro n hn
      refine (ih n hn (hChildren n hn).1 (hKind n hn).1).2 (hKind n hn).2 ?_
      rintro rfl
      exact Node.ne_nil_of_isJoined hJoined hn rfl
    have hLone : ∀ n ∈ ns, .backslash ∉ Token.ofText n.source := fun n hn =>
      (hChildren n hn).1.backslash_not_mem (hKind n hn).1
    -- the sequence starts without nodes, so these are added as they are
    have hNodes : pushAll [] (consText s ns) = (consText s ns).reverse := by
      rw [pushAll_of_joined (isJoined_consText_of_isJoined hJoined) (.inl rfl), List.append_nil]
    refine ⟨_, endOption_of_isTidyOption hOption hJoined, fun cs rest => ?_⟩
    rw [Node.source_option, ← hNodes]
    by_cases hs : s = []
    · rw [hs, List.nil_append, scan_flatMap hAdds hLone, consText_nil]
    · have hOpening := Text.not_mem_of_isLegible hLegible (t := .opening) rfl
      have hBackslash := Text.not_mem_of_isLegible hLegible (t := .backslash) rfl
      rw [Token.ofText_append hBackslash, List.append_assoc,
        scan_text hs hOpening (.inr hLegible), scan_flatMap hAdds hLone, pushAll_consText hs]
  | choice os ih =>
    refine ⟨by simp, fun _ _ cs acc rest => ?_⟩
    obtain ⟨hne, hOptions⟩ := h.of_choice
    have hRoot : ∀ o ∈ os, o.kind ≠ .root := fun o ho => by simp [(hOptions o ho).2]
    -- the options end as themselves, one after the other
    have hEnds : ∀ o ∈ os, EndsAs o := fun o ho =>
      (ih o ho (hOptions o ho).1 (hRoot o ho)).1 (hOptions o ho).2
    have hLone : ∀ o ∈ os, .backslash ∉ Token.ofText o.source := fun o ho =>
      (hOptions o ho).1.backslash_not_mem (hRoot o ho)
    have hInside : .backslash ∉ Token.ofText (['|'].intercalate (os.map Node.source)) := by
      refine Token.backslash_not_mem_intercalate fun s hs => ?_
      obtain ⟨o, ho, rfl⟩ := List.mem_map.mp hs
      exact hLone o ho
    have hTokens : Token.ofText (Node.choice os).source ++ rest = .opening ::
        (Token.ofText (['|'].intercalate (os.map Node.source)) ++ .closing :: rest) := by
      rw [Node.source_choice, Token.ofText_cons_of_ne (by decide), Token.ofText_append hInside,
        List.cons_append, List.append_assoc]
      rfl
    have hNotLast : (Token.ofText (['|'].intercalate (os.map Node.source)) ++
        .closing :: rest).isEmpty = false := by simp
    rw [hTokens, scan, step, hNotLast, if_neg Bool.false_ne_true,
      scan_intercalate hne hEnds hLone]
    rfl
  | root ns ih => exact absurd rfl hRoot

end OnePass

/-! ## Roots -/

namespace Node

/-- Whether the texts of a root are text: no brace opens in them and no
backslash stands alone, but at the very end. -/
def ReadsAtRoot : List Node → Prop
  | [] => True
  | [.text s] => .opening ∉ (Token.ofText s).dropLast
  | .text s :: ns => .opening ∉ Token.ofText s ∧ .backslash ∉ Token.ofText s ∧ ReadsAtRoot ns
  | _ :: ns => ReadsAtRoot ns

/-- A choice holds options, whose literals are inside an option wherever the
choice stands. -/
theorem isLegible_choice {os : List Node} (hWell : WellFormed (.choice os))
    (h : isLegible false (.choice os) = true) : isLegible true (.choice os) = true := by
  rw [isLegible, isLegibleAll_iff] at h ⊢
  intro o ho
  have hAccepts := (allAccepted_iff.mp hWell o ho).1
  cases o with
  | option s ns => exact h _ ho
  | _ => exact absurd hAccepts (by simp [Kind.accepts])

end Node

namespace OnePass

open Node (isJoined)

/-- Text up to the end, where a brace that opens is text too. -/
theorem scan_end {ts : List Token} (hne : ts ≠ []) (h : .opening ∉ ts.dropLast)
    (acc : List Node) :
    scan ⟨[], acc⟩ ts = ⟨[], addText (ts.flatMap Token.spelling) acc⟩ := by
  induction ts generalizing acc with
  | nil => exact absurd rfl hne
  | cons t ts ih =>
    -- the last token is text whatever it is
    by_cases hnil : ts = []
    · subst hnil
      have hStep : step ⟨[], acc⟩ t true = ⟨[], addText t.spelling acc⟩ := by
        cases t <;> rfl
      rw [scan, List.isEmpty_nil, hStep, List.flatMap_singleton]
      rfl
    · rw [List.dropLast_cons_of_ne_nil hnil, List.mem_cons, not_or] at h
      have hStep : ∀ isLast, step ⟨[], acc⟩ t isLast = ⟨[], addText t.spelling acc⟩ := by
        intro isLast
        cases t with
        | opening => exact absurd rfl h.1
        | _ => rfl
      rw [scan, hStep, ih hnil h.2, addText_addText, List.flatMap_cons]

/-- What is written for the children of a root is read as these children. -/
theorem complete_root {ns : List Node}
    (hKind : ∀ n ∈ ns, n.kind = .text ∨ n.kind = .choice ∧ n.Readable)
    (hJoined : isJoined ns = true) (hReads : Node.ReadsAtRoot ns) (acc : List Node) :
    (scan ⟨[], acc⟩ (Token.ofText (ns.flatMap Node.source))).complete =
      (pushAll acc ns).reverse := by
  induction ns generalizing acc with
  | nil => rfl
  | cons n ns ih =>
    rw [List.forall_mem_cons] at hKind
    have ih := ih hKind.2 (Node.isJoined_tail hJoined)
    cases n with
    | text s =>
      have hs := ((Node.isJoined_text_cons s ns).mp hJoined).1
      cases ns with
      | nil =>
        have hEnd := scan_end (mt Token.ofText_eq_nil.mp hs) hReads acc
        rw [Token.spelling_ofText] at hEnd
        rw [List.flatMap_singleton, Node.source_text, hEnd]
        rfl
      | cons m ms =>
        obtain ⟨hOpening, hLone, hReads⟩ := hReads
        rw [List.flatMap_cons, Node.source_text, Token.ofText_append hLone,
          scan_text hs hOpening (.inl rfl), ih hReads]
        rfl
    | choice os =>
      -- a choice leaves no choice open, so what follows stands at the root again
      have hReadable := (hKind.1.resolve_left (by simp)).2
      have hReads : Node.ReadsAtRoot ns := hReads
      rw [List.flatMap_cons, Token.ofText_append (hReadable.backslash_not_mem (by simp)),
        (scan_readable hReadable (by simp)).2 (by simp) (by simp), ih hReads]
      rfl
    | _ => exact absurd hKind.1 (by simp)

end OnePass

/-- **A tree that is tidy, well formed and legible is read back** from its
source, at every depth that is enough for it. -/
theorem root_ofText_source {maxDepth : Nat} {ns : List Node}
    (hTidy : (Node.root ns).isTidy = true) (hWell : (Node.root ns).WellFormed)
    (hLegible : (Node.root ns).isLegible false = true) (hReads : Node.ReadsAtRoot ns)
    (hDeep : ∀ d ∈ (Reading.ofText maxDepth (Node.root ns).source).diagnostics,
      d.isNestingTooDeep = false) :
    (Reading.ofText maxDepth (Node.root ns).source).root = .root ns := by
  have hParts := hTidy
  rw [Node.isTidy, Bool.and_eq_true, Bool.and_eq_true] at hParts
  obtain ⟨⟨-, hJoined⟩, hAll⟩ := hParts
  have hKind : ∀ n ∈ ns, n.kind = .text ∨ n.kind = .choice ∧ n.Readable := by
    intro n hn
    obtain ⟨hAccepts, hWell⟩ := Node.allAccepted_iff.mp hWell n hn
    cases n with
    | text s => exact .inl rfl
    | choice os =>
      have hChoice := Node.isLegibleAll_iff.mp hLegible _ hn
      exact .inr ⟨rfl, Node.isTidyAll_iff.mp hAll _ hn, hWell, Node.isLegible_choice hWell hChoice⟩
    | _ => exact absurd hAccepts (by simp [Kind.accepts])
  have hNormal := normalize_source hTidy fun n hn => (hKind n hn).imp_right And.left
  -- the reading is the one pass, and the one pass gives the nodes back
  have hScan := OnePass.complete_ofText (Text.endsBlank_normalize _) hDeep
  have hRoot := OnePass.complete_root hKind hJoined hReads []
  rw [OnePass.pushAll_of_joined hJoined (.inl rfl), List.append_nil, List.reverse_reverse,
    ← Node.source_root, ← hNormal] at hRoot
  exact congrArg Node.root (hScan.symm.trans hRoot)

end Spintax
