import Spintax.Diagnostic
import Spintax.Lexeme
import Spintax.Node

/-!
# Spintax — reading

Reading turns a text into a tree and a list of diagnostics; it never fails.

A run of lexemes is cut into *items*: lexemes that stand for themselves, and
choices with the runs of their options. Each option is trimmed and read in
turn, one level deeper. Where the levels allowed are used up, a whole run is
kept as text.

* `Body.ofLexemes` — cuts what follows an opening brace into options;
* `Item.ofLexemes` — cuts a run into literals and choices;
* `nodesOf`, `reportsOf` — the nodes of a run, and the repairs they needed;
* `Reading.ofText` — the whole: normal text, root and diagnostics.
-/

namespace Spintax

/-! ## Cutting a run -/

/-- What follows an opening brace: the runs of the options, and the lexemes
after the closing brace if there is one. -/
structure Body where
  first : List Lexeme
  others : List (List Lexeme)
  rest? : Option (List Lexeme)

namespace Body

/-- The runs of the options; there is always one. -/
def options (b : Body) : List (List Lexeme) :=
  b.first :: b.others

/-- The lexemes after the choice. -/
def rest (b : Body) : List Lexeme :=
  b.rest?.getD []

/-- One more lexeme at the beginning of the first option. -/
def push (l : Lexeme) (b : Body) : Body :=
  { b with first := l :: b.first }

/-- An empty option before the others. -/
def pushOption (b : Body) : Body :=
  { b with first := [], others := b.first :: b.others }

/-- The text that a body was cut from: its options with a bar between two, and
what follows after a closing brace. -/
def spelling (b : Body) : List Char :=
  ['|'].intercalate (b.options.map Lexeme.spellAll) ++
    match b.rest? with
    | some ls => '}' :: Lexeme.spellAll ls
    | none => []

/-- Cuts the lexemes inside `level` further braces. A bar outside of them
starts the next option, a closing brace outside of them ends the choice. -/
def ofLexemes : Nat → List Lexeme → Body
  | _, [] => ⟨[], [], none⟩
  | level, l :: ls =>
    match l.token, level with
    | .closing, 0 => ⟨[], [], some ls⟩
    -- what stands inside further braces belongs to the option, braces included
    | .closing, level + 1 => (ofLexemes level ls).push l
    | .bar, 0 => (ofLexemes 0 ls).pushOption
    | .opening, level => (ofLexemes (level + 1) ls).push l
    | _, level => (ofLexemes level ls).push l

/-- What lies behind a body is no longer than what was read; this is why reading ends. -/
theorem length_rest_ofLexemes (level : Nat) (ls : List Lexeme) :
    (ofLexemes level ls).rest.length ≤ ls.length := by
  induction ls generalizing level with
  | nil => simp [ofLexemes, rest]
  | cons l ls ih =>
    have step : ∀ n, (ofLexemes n ls).rest.length ≤ (l :: ls).length := fun n =>
      Nat.le_succ_of_le (ih n)
    unfold ofLexemes
    split
    · simp [rest]
    · exact step _
    · exact step _
    · exact step _
    · exact step _

end Body

/-- A part of a run. -/
inductive Item where
  /-- A lexeme that stands for itself. -/
  | literal (l : Lexeme)
  /-- A choice: where it opens, the runs of its options, whether it is closed. -/
  | choice (pos : Nat) (options : List (List Lexeme)) (closed : Bool)

namespace Item

/-- The text that an item was cut from. -/
def spelling : Item → List Char
  | .literal l => l.spelling
  | .choice _ options closed =>
    '{' :: ['|'].intercalate (options.map Lexeme.spellAll) ++ (if closed then ['}'] else [])

/-- Cuts a run into literals and choices. An opening brace with nothing after
it is a literal. -/
def ofLexemes : List Lexeme → List Item
  | [] => []
  | l :: ls =>
    if l.token = .opening ∧ ls ≠ [] then
      .choice l.pos (Body.ofLexemes 0 ls).options (Body.ofLexemes 0 ls).rest?.isSome ::
        ofLexemes (Body.ofLexemes 0 ls).rest
    else
      .literal l :: ofLexemes ls
termination_by ls => ls.length
decreasing_by
  · exact Nat.lt_succ_of_le (Body.length_rest_ofLexemes 0 ls)
  · exact Nat.lt_succ_self _

end Item

/-! ## Nodes -/

namespace Node

/-- Text in front of a sequence: it joins a text that is already first, and
the empty text leaves no node. -/
def consText : List Char → List Node → List Node
  | s, .text t :: ns => .text (s ++ t) :: ns
  | [], ns => ns
  | s, ns => .text s :: ns

/-- An option in its simplest form: a single text after an empty beginning is
the beginning, and a beginning with nothing after it is trimmed. -/
def simplifyOption : List Char → List Node → Node
  | [], [.text s] => .option (Text.trim s) []
  | s, [] => .option (Text.trim s) []
  | s, ns => .option s ns

/-- The option that holds a sequence: a text that comes first is its
beginning, and later texts of nothing but blanks are left out. -/
def optionOf : List Node → Node
  | .text s :: ns => simplifyOption s (ns.filter fun n => !n.isBlankText)
  | ns => simplifyOption [] (ns.filter fun n => !n.isBlankText)

end Node

/-- The option of a run: trimmed, then read by `read`; the empty run is the
empty option. -/
def optionNode (read : List Lexeme → List Node) (ls : List Lexeme) : Node :=
  match Lexeme.trim ls with
  | [] => .option [] []
  | kept => Node.optionOf (read kept)

/-- The nodes of a list of items, where `read` gives those of an option. -/
def assemble (read : List Lexeme → List Node) : List Item → List Node
  | [] => []
  | .literal l :: items => Node.consText l.spelling (assemble read items)
  | .choice _ options _ :: items =>
    .choice (options.map (optionNode read)) :: assemble read items

/-- The nodes of a run in which choices may nest `depth` levels deep. -/
def nodesOf : Nat → List Lexeme → List Node
  -- nothing is cut any more: braces and bars are text here
  | 0, ls => Node.consText (Lexeme.spellAll ls) []
  | depth + 1, ls => assemble (nodesOf depth) (Item.ofLexemes ls)

/-! ## Diagnostics -/

namespace Item

/-- The repair that a literal stands for. -/
def literalReport (l : Lexeme) : List Diagnostic :=
  match l.token with
  | .opening => [.strayOpen l.pos]
  | .closing => [.unmatchedClose l.pos]
  | _ => []

end Item

/-- The repairs inside an option. -/
def optionReports (read : List Lexeme → List Diagnostic) (ls : List Lexeme) : List Diagnostic :=
  match Lexeme.trim ls with
  | [] => []
  | kept => read kept

/-- The repairs of a list of items; that of a choice comes before those inside
its options. -/
def assembleReports (read : List Lexeme → List Diagnostic) : List Item → List Diagnostic
  | [] => []
  | .literal l :: items => Item.literalReport l ++ assembleReports read items
  | .choice pos options closed :: items =>
    (if closed then [] else [.unterminatedChoice pos]) ++
      options.flatMap (optionReports read) ++ assembleReports read items

/-- The repairs of a run in which choices may nest `depth` levels deep, out of
`maxDepth` in all. -/
def reportsOf (maxDepth : Nat) : Nat → List Lexeme → List Diagnostic
  -- one report for the whole run, at the first brace in it
  | 0, ls => (Lexeme.firstBrace? ls).toList.map (.nestingTooDeep · maxDepth)
  | depth + 1, ls => assembleReports (reportsOf maxDepth depth) (Item.ofLexemes ls)

/-! ## The whole text -/

/-- A text as it was read. -/
structure Reading where
  /-- The normal text, into which the diagnostics point. -/
  normal : List Char
  root : Node
  /-- The repairs, in the order in which they were made. -/
  diagnostics : List Diagnostic
deriving DecidableEq

/-- How deep choices may nest unless something else is said. -/
def defaultMaxDepth : Nat := 128

namespace Reading

/-- Reads a text as it stands, with choices nested at most `maxDepth` deep. -/
def ofNormal (maxDepth : Nat) (s : List Char) : Reading where
  normal := s
  root := .root (nodesOf maxDepth (Lexeme.ofText s))
  diagnostics := reportsOf maxDepth maxDepth (Lexeme.ofText s)

/-- Reads the normal form of a text, with choices nested at most `maxDepth`
deep. -/
def ofText (maxDepth : Nat) (s : List Char) : Reading :=
  ofNormal maxDepth (Text.normalize s)

end Reading

/-- The tree of a text, read at the default depth. -/
def parse (s : List Char) : Node :=
  (Reading.ofText defaultMaxDepth s).root

/-! ## Small laws -/

namespace Body

/-- A lexeme that is put in front of a body is spelled before it. -/
theorem spelling_push (l : Lexeme) (b : Body) :
    (b.push l).spelling = l.spelling ++ b.spelling := by
  obtain ⟨first, others, rest⟩ := b
  cases others <;>
    simp [spelling, push, options, Lexeme.spellAll_cons, List.intercalate]

/-- An empty option that is put in front of a body is spelled as the bar behind it. -/
theorem spelling_pushOption (b : Body) : b.pushOption.spelling = '|' :: b.spelling := by
  obtain ⟨first, others, rest⟩ := b
  simp [spelling, pushOption, options, Lexeme.spellAll, List.intercalate]

/-- Cutting loses nothing. -/
theorem spelling_ofLexemes (level : Nat) (ls : List Lexeme) :
    (ofLexemes level ls).spelling = Lexeme.spellAll ls := by
  induction ls generalizing level with
  | nil => rfl
  | cons l ls ih =>
    rw [Lexeme.spellAll_cons]
    unfold ofLexemes
    split
    -- the closing brace is spelled by the body itself
    · next ht => simp [spelling, options, Lexeme.spellAll, Lexeme.spelling, ht, Token.spelling]
    · rw [spelling_push, ih]
    · next ht => rw [spelling_pushOption, ih, Lexeme.spelling, ht]; rfl
    · rw [spelling_push, ih]
    · rw [spelling_push, ih]

end Body

/-- Nor does cutting a run into items. -/
theorem Item.spelling_ofLexemes (ls : List Lexeme) :
    (Item.ofLexemes ls).flatMap Item.spelling = Lexeme.spellAll ls := by
  fun_induction Item.ofLexemes ls with
  | case1 => rfl
  | case2 l ls h ih =>
    have hl : l.spelling = ['{'] := by rw [Lexeme.spelling, h.1]; rfl
    rw [List.flatMap_cons, ih, Lexeme.spellAll_cons, hl, ← Body.spelling_ofLexemes 0 ls]
    unfold Body.spelling Body.rest
    -- with a closing brace the rest goes on after it, without one there is none
    cases (Body.ofLexemes 0 ls).rest? <;> simp [Item.spelling, Lexeme.spellAll]
  | case3 l ls _ ih => rw [List.flatMap_cons, ih, Lexeme.spellAll_cons, Item.spelling]

/-- The tree of a text is a root, whatever the text. -/
theorem Reading.isRoot_ofText (maxDepth : Nat) (s : List Char) :
    (Reading.ofText maxDepth s).root.isRoot = true := rfl

/-- A text with characters in it becomes a node. -/
theorem Node.consText_of_ne_nil {s : List Char} (h : s ≠ []) :
    Node.consText s [] = [.text s] := by
  cases s with
  | nil => exact absurd rfl h
  | cons c s => rfl

end Spintax
