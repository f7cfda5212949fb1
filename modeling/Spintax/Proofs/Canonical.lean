import Spintax.Proofs.Braces
import Spintax.Proofs.ChildRules
import Spintax.Proofs.Depth

/-!
# Spintax — canonical trees are read back

Writing a canonical tree and reading the text gives the tree back, and there is
nothing to repair. That the tree comes back is `root_ofText_source`, as soon as
reading makes no report on the depth; that depends on the tokens of the source
(`deep_iff_fits`), as do the reports on braces. So what is left to see is how
the tokens of a tree nest: the source of a node inside an option closes every
brace that it opens and goes no deeper than the tree does, and the source of the
root is laid together from such pieces and from texts without braces.

* `Token.Nested` — tokens that stay inside an option, and do not go too deep;
* `Node.balanced_source` — those of a tree;
* `Token.Settled` — tokens that leave no brace over;
* `diagnostics_eq_nil_of_settled` — then there is nothing to report;
* `ofText_source_of_isCanonical` — a canonical tree is read back;
* `root_ofText_isTidy` — what reading returns is canonical but for its literals.
-/

namespace Spintax

/-! ## Tokens inside an option -/

namespace Token

/-- Tokens that stand inside `level` braces, close every brace that they open
and none besides, and fit. -/
structure Nested (limit level : Nat) (ts : List Token) : Prop where
  closed : ts.foldlM levelAfter level = some level
  fits : Fits limit level ts

variable {limit level : Nat} {ts us : List Token}

/-- The count over tokens is that over lexemes, wherever these start. -/
theorem levelAfter_place (pos : Nat) :
    Lexeme.levelAfter level (Lexeme.place pos ts) = ts.foldlM levelAfter level := by
  have hTokens : ((Lexeme.place pos ts).map Lexeme.token).foldlM levelAfter level =
      Lexeme.levelAfter level (Lexeme.place pos ts) := List.foldlM_map ..
  rw [← hTokens, Lexeme.map_token_place]

/-- Nested tokens leave as many braces open as were open before. -/
theorem Nested.openAfterAll_eq (h : Nested limit level ts) : openAfterAll level ts = level := by
  have hLevel := Lexeme.openAfterAll_of_levelAfter ((levelAfter_place 0).trans h.closed)
  rwa [Lexeme.map_token_place] at hLevel

theorem Nested.nil : Nested limit level [] := ⟨rfl, trivial⟩

/-- Nested tokens may follow one another. -/
theorem Nested.append (ht : Nested limit level ts) (hu : Nested limit level us) :
    Nested limit level (ts ++ us) where
  closed := by
    rw [List.foldlM_append, ht.closed]
    exact hu.closed
  fits := fits_append.mpr ⟨ht.fits, by rw [ht.openAfterAll_eq]; exact hu.fits⟩

/-- Text is inside wherever it stands. -/
theorem Nested.of_isLiteral (h : ∀ t ∈ ts, t.isLiteral = true) (hLimit : level < limit) :
    Nested limit level ts := by
  induction ts with
  | nil => exact .nil
  | cons t ts ih =>
    rw [List.forall_mem_cons] at h
    obtain ⟨hClosed, hFits⟩ := ih h.2
    have hLevel : t.levelAfter level = some level := by
      cases t <;> simp_all [isLiteral, levelAfter]
    refine ⟨?_, fun _ => hLimit, ?_⟩
    · rw [List.foldlM_cons, hLevel]
      exact hClosed
    · rw [openAfter_of_levelAfter hLevel]
      exact hFits

/-- A bar parts the options of the choice it stands in. -/
theorem Nested.bar : Nested limit (level + 1) [.bar] :=
  ⟨rfl, by simp [Fits, hasBrace]⟩

/-- Inside one more brace there is room for one more level. -/
theorem Nested.inside (h : Nested limit 0 ts) : Nested (limit + 1) 1 ts := by
  have hLevel : Lexeme.levelAfter 0 (Lexeme.place 0 ts) = some 0 :=
    (levelAfter_place 0).trans h.closed
  have hFits := Lexeme.fits_shift hLevel limit 1
  rw [Lexeme.map_token_place] at hFits
  exact ⟨(levelAfter_place 0).symm.trans (Lexeme.levelAfter_add hLevel 1), hFits.mpr h.fits⟩

/-- Braces around tokens that stay inside them. -/
theorem Nested.braces (h : Nested (limit + 1) 1 ts) :
    Nested (limit + 1) 0 (.opening :: (ts ++ [.closing])) where
  closed := by
    have hOpening : opening.levelAfter 0 = some 1 := rfl
    have hClosing : [closing].foldlM levelAfter 1 = some 0 := rfl
    rw [List.foldlM_cons, hOpening, Option.bind_eq_bind, Option.bind_some, List.foldlM_append,
      h.closed]
    exact hClosing
  fits := by
    have hClosing : Fits (limit + 1) (openAfterAll 1 ts) [closing] := by simp [Fits, hasBrace]
    exact fits_cons.mpr ⟨fun _ => Nat.succ_pos limit, fits_append.mpr ⟨h.fits, hClosing⟩⟩

/-! ## Tokens at the root -/

/-- Tokens that fit and match their braces among themselves, so that nothing is
left over, wherever they are placed. -/
structure Settled (limit : Nat) (ts : List Token) : Prop where
  fits : Fits limit 0 ts
  openAfterAll_eq : openAfterAll 0 ts = 0
  foldl_step : ∀ pos b, (Lexeme.place pos ts).foldl Matching.step b = b

/-- Nested tokens that stand in no brace match their braces among themselves. -/
theorem Nested.settled (h : Nested limit 0 ts) : Settled limit ts where
  fits := h.fits
  openAfterAll_eq := h.openAfterAll_eq
  foldl_step pos b := Matching.foldl_step_closed ((levelAfter_place pos).trans h.closed) b

/-- Settled tokens may follow one another. -/
theorem Settled.append (ht : Settled limit ts) (hu : Settled limit us) :
    Settled limit (ts ++ us) where
  fits := fits_append.mpr ⟨ht.fits, by rw [ht.openAfterAll_eq]; exact hu.fits⟩
  openAfterAll_eq := by
    have hAll : openAfterAll 0 (ts ++ us) = openAfterAll (openAfterAll 0 ts) us :=
      List.foldl_append
    rw [hAll, ht.openAfterAll_eq, hu.openAfterAll_eq]
  foldl_step pos b := by
    rw [Lexeme.place_append, List.foldl_append, ht.foldl_step, hu.foldl_step]

/-- Outside of all choices a bar is text as well. -/
theorem Settled.of_literal_or_bar (h : ∀ t ∈ ts, t.isLiteral = true ∨ t = .bar)
    (hLimit : 0 < limit) : Settled limit ts := by
  induction ts with
  | nil => exact Nested.nil.settled
  | cons t ts ih =>
    rw [List.forall_mem_cons] at h
    have hOne : Settled limit [t] := by
      rcases h.1 with hLiteral | rfl
      · exact (Nested.of_isLiteral (by simpa using hLiteral) hLimit).settled
      · exact ⟨⟨fun _ => hLimit, trivial⟩, rfl,
          fun pos b => Matching.step_of_bar (l := ⟨.bar, pos⟩) rfl b⟩
    exact hOne.append (ih h.2)

end Token

/-! ## Quoted texts -/

/-- A literal that reads as itself is legible inside an option. -/
theorem Text.isLegible_of_isQuoted {s : List Char} (h : isQuoted true s = true) :
    isLegible s = true := by
  refine isLegible_iff.mpr fun t ht => ?_
  have hToken := List.all_eq_true.mp h t ht
  cases t <;> simp_all [Token.isLiteral]

/-- Outside of all choices bars need no backslash. -/
theorem Text.literal_or_bar_of_isQuoted {s : List Char} {inOption : Bool}
    (h : isQuoted inOption s = true) : ∀ t ∈ Token.ofText s, t.isLiteral = true ∨ t = .bar := by
  intro t ht
  have hToken := List.all_eq_true.mp h t ht
  cases t <;> simp_all [Token.isLiteral]

namespace Node

/-- A list of nodes is quoted if each of its nodes is. -/
theorem isQuotedAll_iff {inOption : Bool} {ns : List Node} :
    isQuotedAll inOption ns = true ↔ ∀ n ∈ ns, isQuoted inOption n = true := by
  induction ns with
  | nil => simp [isQuotedAll]
  | cons n ns ih => simp [isQuotedAll, ih]

/-- A quoted tree is legible. -/
theorem isLegible_of_isQuoted {n : Node} {inOption : Bool} (h : n.isQuoted inOption = true) :
    n.isLegible inOption = true := by
  induction n using tree_induction generalizing inOption with
  | text s =>
    cases inOption with
    | true => exact Text.isLegible_of_isQuoted h
    | false => rfl
  | option s ns ih =>
    rw [isQuoted, Bool.and_eq_true] at h
    rw [isLegible, Bool.and_eq_true]
    exact ⟨Text.isLegible_of_isQuoted h.1,
      isLegibleAll_iff.mpr fun n hn => ih n hn (isQuotedAll_iff.mp h.2 n hn)⟩
  | choice ns ih => exact isLegibleAll_iff.mpr fun n hn => ih n hn (isQuotedAll_iff.mp h n hn)
  | root ns ih => exact isLegibleAll_iff.mpr fun n hn => ih n hn (isQuotedAll_iff.mp h n hn)

/-- The texts of a quoted root are text. -/
theorem readsAtRoot_of_isQuoted {ns : List Node} (h : ∀ n ∈ ns, n.isQuoted false = true) :
    ReadsAtRoot ns := by
  have hNone : ∀ {s : List Char} {t : Token}, Text.isQuoted false s = true →
      t.isLiteral = false → t ≠ .bar → t ∉ Token.ofText s := by
    intro s t hs hLiteral hBar hMem
    rcases Text.literal_or_bar_of_isQuoted hs t hMem with hToken | hToken
    · exact Bool.false_ne_true (hLiteral.symm.trans hToken)
    · exact hBar hToken
  induction ns with
  | nil => trivial
  | cons n ns ih =>
    rw [List.forall_mem_cons] at h
    have hRest := ih h.2
    cases n with
    | text s =>
      have hOpening := hNone (t := .opening) h.1 rfl (by simp)
      cases ns with
      | nil => exact fun hMem => hOpening (List.dropLast_subset _ hMem)
      | cons m ms => exact ⟨hOpening, hNone h.1 rfl (by simp), hRest⟩
    | _ => exact hRest

/-! ## The tokens of a tree -/

/-- Nodes nest less deep than a limit if each of them does. -/
theorem choiceDepthAll_lt_iff {ns : List Node} {limit : Nat} (hLimit : 0 < limit) :
    choiceDepthAll ns < limit ↔ ∀ n ∈ ns, n.choiceDepth < limit := by
  induction ns with
  | nil => simpa [choiceDepthAll] using hLimit
  | cons n ns ih => rw [choiceDepthAll, Nat.max_lt, ih, List.forall_mem_cons]

/-- What holds of pieces, and of two texts one after the other, holds of all the
pieces together. -/
theorem tokens_flatMap {P : List Token → Prop} (hNil : P [])
    (hAppend : ∀ {ts us}, P ts → P us → P (ts ++ us)) {ns : List Node}
    (h : ∀ n ∈ ns, P (Token.ofText n.source))
    (hLone : ∀ n ∈ ns, .backslash ∉ Token.ofText n.source) :
    P (Token.ofText (ns.flatMap source)) := by
  induction ns with
  | nil => exact hNil
  | cons n ns ih =>
    rw [List.forall_mem_cons] at h hLone
    rw [List.flatMap_cons, Token.ofText_append hLone.1]
    exact hAppend h.1 (ih h.2 hLone.2)

end Node

/-! ## Texts that close what they open -/

namespace Text

/-- A text that closes every brace that it opens and none besides, where there
is so much room for braces, and does not end with a lone backslash. -/
structure Balanced (room : Nat) (s : List Char) : Prop where
  nested : ∀ {limit}, room ≤ limit → Token.Nested limit 0 (Token.ofText s)
  lone : .backslash ∉ Token.ofText s

namespace Balanced

variable {room : Nat} {s t : List Char} {ss : List (List Char)}

theorem mono {room' : Nat} (h : Balanced room s) (hLe : room ≤ room') : Balanced room' s :=
  ⟨fun hLimit => h.nested (hLe.trans hLimit), h.lone⟩

/-- A legible literal has no braces but those in pairs, which need room for one. -/
theorem of_isLegible (h : isLegible s = true) : Balanced 1 s :=
  ⟨fun hLimit => .of_isLiteral (isLegible_iff.mp h) hLimit, not_mem_of_isLegible h rfl⟩

/-- Balanced texts may follow one another. -/
theorem append (hs : Balanced room s) (ht : Balanced room t) : Balanced room (s ++ t) := by
  have hTokens := Token.ofText_append hs.lone t
  constructor
  · intro limit hLimit
    rw [hTokens]
    exact (hs.nested hLimit).append (ht.nested hLimit)
  · rw [hTokens, List.mem_append, not_or]
    exact ⟨hs.lone, ht.lone⟩

/-- Any number of balanced texts may follow one another. -/
theorem flatten (h : ∀ s ∈ ss, Balanced room s) : Balanced room ss.flatten := by
  induction ss with
  | nil => exact ⟨fun _ => .nil, by simp [Token.ofText]⟩
  | cons s ss ih =>
    rw [List.forall_mem_cons] at h
    exact h.1.append (ih h.2)

/-- Options with bars between them, inside the braces of their choice. -/
theorem nested_intercalate (h : ∀ s ∈ ss, Balanced room s) {limit : Nat} (hLimit : room ≤ limit) :
    Token.Nested (limit + 1) 1 (Token.ofText (['|'].intercalate ss)) := by
  induction ss using bars_induction with
  | nil => exact .nil
  | last s => exact ((h s List.mem_cons_self).nested hLimit).inside
  | bar s ss ih =>
    rw [List.forall_mem_cons] at h
    rw [Token.ofText_append h.1.lone, Token.ofText_cons_of_ne (by decide)]
    exact (h.1.nested hLimit).inside.append (Token.Nested.bar.append (ih h.2))

/-- A choice needs one level more than its options. -/
theorem braces (h : ∀ s ∈ ss, Balanced room s) :
    Balanced (room + 1) ('{' :: (['|'].intercalate ss ++ ['}'])) := by
  have hInside := Token.backslash_not_mem_intercalate fun s hs => (h s hs).lone
  have hTokens : Token.ofText ('{' :: (['|'].intercalate ss ++ ['}'])) =
      .opening :: (Token.ofText (['|'].intercalate ss) ++ [.closing]) := by
    rw [Token.ofText_cons_of_ne (by decide), Token.ofText_append hInside]
    rfl
  constructor
  · intro limit hLimit
    obtain ⟨below, rfl⟩ := Nat.exists_eq_add_one.mpr (Nat.zero_lt_of_lt hLimit)
    rw [hTokens]
    exact (nested_intercalate h (Nat.le_of_succ_le_succ hLimit)).braces
  · rw [hTokens, List.mem_cons, List.mem_append, not_or, not_or]
    exact ⟨by decide, hInside, by decide⟩

end Balanced

end Text

namespace Node

/-- **The source of a tree closes what it opens** if the literals do, and needs
as much room more as the tree is deep. -/
theorem balanced_source {n : Node} {room : Nat} (h : ∀ s ∈ n.literals, Text.Balanced room s) :
    Text.Balanced (n.choiceDepth + room) n.source := by
  -- no child needs more than the depth of all of them
  have hAll : ∀ {ns : List Node},
      (∀ n ∈ ns, Text.Balanced (n.choiceDepth + room) n.source) →
      ∀ s ∈ ns.map source, Text.Balanced (choiceDepthAll ns + room) s := by
    intro ns ih s hs
    obtain ⟨n, hn, rfl⟩ := List.mem_map.mp hs
    have hDepth := choiceDepthAll_le_iff.mp (Nat.le_refl (choiceDepthAll ns)) n hn
    exact (ih n hn).mono (Nat.add_le_add_right hDepth room)
  refine literal_induction (motive := fun n => Text.Balanced (n.choiceDepth + room) n.source)
    ?text ?option ?choice ?root h
  case text =>
    intro s hs
    exact hs.mono (Nat.le_add_left ..)
  case option =>
    intro s ns hs ih
    rw [source_option, List.flatMap_def]
    exact (hs.mono (Nat.le_add_left ..)).append (.flatten (hAll ih))
  case choice =>
    intro ns ih
    rw [source_choice, choiceDepth, Nat.add_right_comm]
    exact .braces (hAll ih)
  case root =>
    intro ns ih
    rw [source_root, List.flatMap_def]
    exact .flatten (hAll ih)

/-- In a readable tree every literal is legible. -/
theorem Readable.isLegible_of_mem_literals {n : Node} (h : n.Readable) (hRoot : n.kind ≠ .root) :
    ∀ s ∈ n.literals, Text.isLegible s = true := by
  induction n using tree_induction with
  | text s =>
    intro t ht
    rw [List.mem_singleton.mp ht]
    exact h.legible
  | option s ns ih =>
    obtain ⟨hLegible, -, -, hChildren⟩ := h.of_option
    rw [literals_option, List.forall_mem_cons]
    refine ⟨hLegible, fun t ht => ?_⟩
    obtain ⟨n, hn, ht⟩ := List.mem_flatMap.mp ht
    refine ih n hn (hChildren n hn).1 ?_ t ht
    rcases (hChildren n hn).2 with hKind | hKind <;> simp [hKind]
  | choice os ih =>
    obtain ⟨-, hOptions⟩ := h.of_choice
    rw [literals_choice]
    intro t ht
    obtain ⟨o, ho, ht⟩ := List.mem_flatMap.mp ht
    exact ih o ho (hOptions o ho).1 (by simp [(hOptions o ho).2]) t ht
  | root ns ih => exact absurd rfl hRoot

/-- The source of a readable node closes what it opens. -/
theorem Readable.balanced {n : Node} (h : n.Readable) (hRoot : n.kind ≠ .root) :
    Text.Balanced (n.choiceDepth + 1) n.source :=
  balanced_source fun s hs => .of_isLegible (h.isLegible_of_mem_literals hRoot s hs)

/-- A child of a quoted root leaves no brace over: a text has none that is
structure, and a choice closes its own. -/
theorem settled_of_isQuoted {n : Node} {limit : Nat} (hAccepts : Kind.root.accepts n.kind = true)
    (hWell : n.WellFormed) (hTidy : n.isTidy = true) (hQuoted : n.isQuoted false = true)
    (hDepth : n.choiceDepth < limit) :
    Token.Settled limit (Token.ofText n.source) ∧ .backslash ∉ Token.ofText n.source := by
  cases n with
  | text s =>
    have hTokens := Text.literal_or_bar_of_isQuoted hQuoted
    refine ⟨.of_literal_or_bar hTokens (Nat.zero_lt_of_lt hDepth), fun hMem => ?_⟩
    simpa [Token.isLiteral] using hTokens _ hMem
  | choice os =>
    have hReadable : (choice os).Readable :=
      ⟨hTidy, hWell, isLegible_choice hWell (isLegible_of_isQuoted hQuoted)⟩
    have hBalanced := hReadable.balanced (by simp)
    exact ⟨(hBalanced.nested hDepth).settled, hBalanced.lone⟩
  | _ => exact absurd hAccepts (by simp [Kind.accepts])

end Node

/-! ## Canonical trees -/

/-- A normal text whose tokens leave nothing over is read without a report. -/
theorem diagnostics_eq_nil_of_settled {maxDepth : Nat} {s : List Char}
    (hNormal : Text.normalize s = s) (hDepth : 0 < maxDepth)
    (hSettled : Token.Settled maxDepth (Token.ofText s)) :
    (Reading.ofText maxDepth s).diagnostics = [] := by
  have hDeep : ∀ d ∈ (Reading.ofText maxDepth s).diagnostics, d.isNestingTooDeep = false := by
    refine deep_iff_fits.mpr ?_
    rw [hNormal, Lexeme.ofText, Lexeme.map_token_place]
    exact hSettled.fits
  -- without a report on the depth, what matching leaves over is what is reported
  have hReports := reportsOf_eq_diagnostics maxDepth (Lexeme.ofText (Text.normalize s)) []
    (Lexeme.endsAt_ofText _) (Lexeme.trimEnd_ofText (Text.endsBlank_normalize s)) hDeep
    fun h => absurd h (Nat.ne_of_gt hDepth)
  have hNone : (Lexeme.ofText (Text.normalize s)).foldl Matching.step Matching.balanced =
      Matching.balanced := by
    rw [hNormal]
    exact hSettled.foldl_step 0 _
  exact hReports.symm.trans ((Matching.diagnostics_eq_nil _).mpr hNone)

/-- **A canonical tree is read back from its source**, without a report, if
choices may nest deeper than they do in the tree. -/
theorem ofText_source_of_isCanonical {t : Node} {maxDepth : Nat} (hCanonical : t.isCanonical = true)
    (hDepth : t.choiceDepth < maxDepth) :
    (Reading.ofText maxDepth t.source).root = t ∧
      (Reading.ofText maxDepth t.source).diagnostics = [] := by
  rw [Node.isCanonical, Bool.and_eq_true, Bool.and_eq_true, Bool.and_eq_true,
    Option.isNone_iff_eq_none, Node.firstViolation?_eq_none_iff] at hCanonical
  obtain ⟨⟨⟨hRoot, hWell⟩, hTidy⟩, hQuoted⟩ := hCanonical
  cases t with
  | root ns =>
    have hTidyAll := hTidy
    rw [Node.isTidy, Bool.and_eq_true, Node.isTidyAll_iff] at hTidyAll
    have hWellAll := Node.allAccepted_iff.mp hWell
    have hQuotedAll := Node.isQuotedAll_iff.mp hQuoted
    have hPos := Nat.zero_lt_of_lt hDepth
    have hDepthAll := (Node.choiceDepthAll_lt_iff hPos).mp hDepth
    have hKind : ∀ n ∈ ns, n.kind = .text ∨ n.kind = .choice := by
      intro n hn
      have hAccepts := (hWellAll n hn).1
      cases n <;> simp_all [Kind.accepts]
    have hChild : ∀ n ∈ ns, Token.Settled maxDepth (Token.ofText n.source) ∧
        .backslash ∉ Token.ofText n.source := fun n hn =>
      Node.settled_of_isQuoted (hWellAll n hn).1 (hWellAll n hn).2 (hTidyAll.2 n hn)
        (hQuotedAll n hn) (hDepthAll n hn)
    -- the source is laid together from those of the children, so it leaves nothing over
    have hSettled : Token.Settled maxDepth (Token.ofText (Node.root ns).source) := by
      rw [Node.source_root]
      exact Node.tokens_flatMap Token.Nested.nil.settled Token.Settled.append
        (fun n hn => (hChild n hn).1) fun n hn => (hChild n hn).2
    have hNone := diagnostics_eq_nil_of_settled (normalize_source hTidy hKind) hPos hSettled
    refine ⟨root_ofText_source hTidy hWell (Node.isLegible_of_isQuoted hQuoted)
      (Node.readsAtRoot_of_isQuoted hQuotedAll) ?_, hNone⟩
    rw [hNone]
    simp
  | _ => exact absurd hRoot (by simp [Node.isRoot])

/-- An option with a choice in it, texts on both sides, and an escaped bar and
brace next to structure. -/
theorem ofText_source_of_nested :
    (Reading.ofText defaultMaxDepth
        ['a', '|', '{', '\\', '|', 'b', '|', 'c', ' ', '{', '}', '}', '\\', '}']).root =
      .root [.text ['a', '|'],
        .choice [.option ['\\', '|', 'b'] [], .option ['c', ' '] [.choice [.option [] []]]],
        .text ['\\', '}']] :=
  (@ofText_source_of_isCanonical (.root [.text ['a', '|'],
    .choice [.option ['\\', '|', 'b'] [], .option ['c', ' '] [.choice [.option [] []]]],
    .text ['\\', '}']]) defaultMaxDepth (by decide +kernel) (by decide +kernel)).1

/-! ## What reading returns -/

/-- **Any text is read as a valid and tidy root**, in which choices nest no deeper
than is allowed, be it not at all. Only its literals may hold braces and bars
that would be taken for structure. -/
theorem root_ofText_isTidy (maxDepth : Nat) (s : List Char) :
    (Reading.ofText maxDepth s).root.isRoot = true ∧
      (Reading.ofText maxDepth s).root.firstViolation? = none ∧
      (Reading.ofText maxDepth s).root.choiceDepth ≤ maxDepth ∧
      (Reading.ofText maxDepth s).root.isTidy = true := by
  refine ⟨Reading.isRoot_ofText maxDepth s, ?_, ?_, isTidy_ofText maxDepth s⟩
  · rw [Node.firstViolation?_eq_none_iff]
    exact wellFormed_ofText maxDepth s
  · exact choiceDepthAll_nodesOf_le maxDepth _

end Spintax
