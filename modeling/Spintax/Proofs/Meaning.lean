import Spintax.Proofs.Canonical
import Spintax.Proofs.FirstPass
import Spintax.Variations.Listing

/-!
# Spintax — what a text says

The renderings of what is read from a text can be told without reading it, as
long as blanks do not count. A pass over the tokens is enough that makes no nodes
(`Meaning.step`): it keeps the beginnings that are possible so far, as letters,
and for each open choice what its options have said.

Three things are seen apart from each other. The one pass that makes nodes goes
along with it (`OnePass.meaning_scan`), because ending an option takes away
blanks only. Through the source of a tree it comes to what the tree says, whatever
the shape of the tree (`Meaning.after_source`). And blanks make no difference to
it (`Meaning.after_thinned`), so neither does trimming the text before it is read.

* `Node.letters` — what a tree says;
* `Meaning.after` — what a text says;
* `letters_root_ofText` — the tree of a text says what the text says.
-/

namespace Spintax

/-! ## Letters -/

namespace Text

/-- A text without its blanks. -/
def letters (s : List Char) : List Char :=
  s.filter fun c => !isBlank c

theorem letters_append (s t : List Char) : letters (s ++ t) = letters s ++ letters t :=
  List.filter_append ..

/-- Leaving out all blanks leaves out blanks only. -/
theorem thinned_letters (s : List Char) : Thinned s (letters s) := by
  induction s with
  | nil => exact .nil
  | cons c s ih =>
    cases hc : isBlank c with
    | true =>
      rw [letters, List.filter_cons_of_neg (by simp [hc])]
      exact .leave hc ih
    | false =>
      rw [letters, List.filter_cons_of_pos (by simp [hc])]
      exact .keep c ih

theorem letters_of_allBlank {s : List Char} (h : allBlank s = true) : letters s = [] :=
  (Thinned.of_allBlank h).filter_eq.symm

theorem letters_eq_self {s : List Char} (h : ∀ c ∈ s, isBlank c = false) : letters s = s :=
  List.filter_eq_self.mpr fun c hc => by rw [h c hc]; rfl

/-- A line break is blank, and so is the space that it becomes. -/
theorem letters_foldBreaks (s : List Char) : letters (foldBreaks s) = letters s := by
  have hSpace : isBlank ' ' = true := by decide
  unfold letters
  fun_induction foldBreaks s with
  | case1 rest ih =>
    rw [List.filter_cons_of_neg (by simp [hSpace]), ih,
      List.filter_cons_of_neg (by simp [isBlank_of_break]),
      List.filter_cons_of_neg (by simp [isBlank_of_break])]
  | case2 c rest _ ih =>
    split
    · next hBreak =>
      rw [List.filter_cons_of_neg (by simp [hSpace]), ih,
        List.filter_cons_of_neg (by simp [isBlank_of_break hBreak])]
    · rw [List.filter_cons, List.filter_cons, ih]
  | case3 => rfl

/-- Normalizing takes no letter from a text. -/
theorem letters_normalize (s : List Char) : letters (normalize s) = letters s := by
  rw [normalize, letters_foldBreaks]
  exact (thinned_trim s).filter_eq

end Text

/-! ## What a tree says -/

/-- Every beginning with every continuation, the first beginning first. -/
def crossed (heads tails : List (List Char)) : List (List Char) :=
  heads.flatMap fun head => tails.map (head ++ ·)

/-- It does not matter which of three lists are crossed first. -/
theorem crossed_assoc (a b c : List (List Char)) :
    crossed (crossed a b) c = crossed a (crossed b c) := by
  simp [crossed, List.flatMap_assoc, List.flatMap_map, List.map_flatMap, Function.comp_def]

@[simp] theorem crossed_unit (a : List (List Char)) : crossed a [[]] = a := by
  simp [crossed]

@[simp] theorem unit_crossed (a : List (List Char)) : crossed [[]] a = a := by
  simp [crossed]

theorem map_letters_crossed (a b : List (List Char)) :
    (crossed a b).map Text.letters = crossed (a.map Text.letters) (b.map Text.letters) := by
  simp [crossed, List.map_flatMap, List.flatMap_map, Text.letters_append, Function.comp_def]

namespace Node

/-- What a node says: its renderings without blanks. -/
def letters (n : Node) : List (List Char) :=
  n.renderings.map Text.letters

/-- What a sequence says. -/
def lettersAll : List Node → List (List Char)
  | [] => [[]]
  | n :: ns => crossed n.letters (lettersAll ns)

/-- Continuing beginnings by a sequence crosses what they say with what it says. -/
theorem map_letters_continuations (ns : List Node) (heads : List (List Char)) :
    (continuations ns heads).map Text.letters =
      crossed (heads.map Text.letters) (lettersAll ns) := by
  induction ns generalizing heads with
  | nil => rw [continuations, lettersAll, crossed_unit]
  | cons n ns ih =>
    have hNext : continuations (n :: ns) heads = continuations ns (crossed heads n.renderings) :=
      rfl
    rw [hNext, ih, map_letters_crossed, crossed_assoc]
    rfl

@[simp] theorem letters_text (s : List Char) : (text s).letters = [Text.letters s] := rfl

theorem letters_option (s : List Char) (ns : List Node) :
    (option s ns).letters = crossed [Text.letters s] (lettersAll ns) :=
  map_letters_continuations ns [s]

theorem letters_root (ns : List Node) : (root ns).letters = lettersAll ns := by
  have hAll := map_letters_continuations ns [[]]
  rwa [List.map_singleton, show Text.letters [] = [] from rfl, unit_crossed] at hAll

/-- A choice with options says what one of them says. -/
theorem letters_choice {ns : List Node} (h : ns ≠ []) :
    (choice ns).letters = ns.flatMap letters := by
  have hAll : ∀ ns : List Node, (alternatives ns).map Text.letters = ns.flatMap letters := by
    intro ns
    induction ns with
    | nil => rfl
    | cons n ns ih => rw [alternatives, List.map_append, ih, List.flatMap_cons, letters]
  obtain ⟨n, ns, rfl⟩ := List.exists_cons_of_ne_nil h
  exact hAll (n :: ns)

/-- A sequence in two parts says what the first one says and then the second. -/
theorem lettersAll_append (ns ms : List Node) :
    lettersAll (ns ++ ms) = crossed (lettersAll ns) (lettersAll ms) := by
  induction ns with
  | nil => exact (unit_crossed _).symm
  | cons n ns ih => rw [List.cons_append, lettersAll, ih, lettersAll, crossed_assoc]

theorem lettersAll_singleton (n : Node) : lettersAll [n] = n.letters :=
  crossed_unit _

/-- A text of blanks says nothing. -/
theorem letters_text_of_allBlank {s : List Char} (h : Text.allBlank s = true) :
    (text s).letters = [[]] := by
  rw [letters_text, Text.letters_of_allBlank h]

/-- Texts of blanks say nothing. -/
theorem lettersAll_filter (ns : List Node) :
    lettersAll (ns.filter fun n => !n.isBlankText) = lettersAll ns := by
  induction ns with
  | nil => rfl
  | cons n ns ih =>
    rw [List.filter_cons]
    split
    · rw [lettersAll, ih, lettersAll]
    · next hBlank =>
      have hNone : n.letters = [[]] := by
        cases n with
        | text s => exact letters_text_of_allBlank (by simpa [isBlankText] using hBlank)
        | _ => simp [isBlankText] at hBlank
      rw [ih, lettersAll, hNone, unit_crossed]

/-- Making an option of a sequence does not change what it says. -/
theorem letters_wrapOption (ns : List Node) : (wrapOption ns).letters = lettersAll ns := by
  unfold wrapOption
  split
  · rw [letters_option, lettersAll_filter, lettersAll, letters_text]
  · rw [letters_option, lettersAll_filter]
    exact unit_crossed _

end Node

/-! ## What a text says -/

namespace Text

/-- A text of which no character is read as more than itself. -/
def Plain (s : List Char) : Prop :=
  ∀ c ∈ s, c ∉ ['{', '}', '|', '\\']

instance (s : List Char) : Decidable (Plain s) :=
  List.decidableBAll (fun c => c ∉ ['{', '}', '|', '\\']) s

theorem Plain.backslash_not_mem {s : List Char} (h : Plain s) : '\\' ∉ s := fun hMem =>
  h _ hMem (by decide)

/-- Whatever is read as more than itself is no blank. -/
theorem isBlank_eq_false {c : Char} (h : c ∈ ['{', '}', '|', '\\']) : isBlank c = false := by
  simp only [List.mem_cons, List.not_mem_nil, or_false] at h
  rcases h with rfl | rfl | rfl | rfl <;> decide

end Text

namespace Token

theorem ofChar_eq_plain {c : Char} (h : c ∉ ['{', '}', '|', '\\']) : ofChar c = .plain c := by
  simp only [List.mem_cons, List.not_mem_nil, or_false, not_or] at h
  rw [ofChar, if_neg h.1, if_neg h.2.1, if_neg h.2.2.1]

/-- Every blank stands for itself. -/
theorem ofChar_of_isBlank {c : Char} (h : Text.isBlank c = true) : ofChar c = .plain c := by
  refine ofChar_eq_plain fun hMem => ?_
  rw [Text.isBlank_eq_false hMem] at h
  exact absurd h nofun

/-- Without backslashes, every character is a token. -/
theorem ofText_eq_map {s : List Char} (h : '\\' ∉ s) : ofText s = s.map ofChar := by
  induction s with
  | nil => rfl
  | cons c s ih =>
    rw [List.mem_cons, not_or] at h
    rw [ofText_cons_of_ne (Ne.symm h.1), ih h.2, List.map_cons]

end Token

/-- An open choice: the beginnings in front of it, and what those of its options
have said that have ended. -/
structure OpenMeaning where
  before : List (List Char)
  said : List (List Char)

/-- What a text has said so far: the open choices, innermost first, and the
beginnings that are possible in the option at hand. -/
structure Meaning where
  choices : List OpenMeaning
  heads : List (List Char)

namespace Meaning

/-- One token. -/
def step (m : Meaning) (t : Token) : Meaning :=
  match t, m.choices with
  | .opening, choices => ⟨⟨m.heads, []⟩ :: choices, [[]]⟩
  | .bar, c :: choices => ⟨{ c with said := c.said ++ m.heads } :: choices, [[]]⟩
  | .closing, c :: choices => ⟨choices, crossed c.before (c.said ++ m.heads)⟩
  | _, _ => { m with heads := crossed m.heads [Text.letters t.spelling] }

/-- Nothing has been said yet. -/
def start : Meaning := ⟨[], [[]]⟩

/-- What has been said after a text without backslashes. -/
def after (m : Meaning) (s : List Char) : Meaning :=
  (s.map Token.ofChar).foldl step m

theorem after_append (m : Meaning) (s t : List Char) : m.after (s ++ t) = (m.after s).after t := by
  rw [after, List.map_append, List.foldl_append]
  rfl

theorem after_cons (m : Meaning) (c : Char) (s : List Char) :
    m.after (c :: s) = (m.step (Token.ofChar c)).after s := rfl

theorem step_plain (m : Meaning) (c : Char) :
    m.step (.plain c) = ⟨m.choices, crossed m.heads [Text.letters [c]]⟩ := rfl

/-- **Blanks make no difference.** -/
theorem after_thinned {s t : List Char} (h : Text.Thinned s t) (m : Meaning) :
    m.after t = m.after s := by
  induction h generalizing m with
  | nil => rfl
  | keep c _ ih => exact ih _
  | @leave c hBlank s t _ ih =>
    have hStep : m.step (.plain c) = m := by
      rw [step_plain, Text.letters_of_allBlank (by simp [Text.allBlank, hBlank]), crossed_unit]
    rw [ih, after_cons, Token.ofChar_of_isBlank hBlank, hStep]

/-- Normalizing a text does not change what it says. -/
theorem after_normalize (m : Meaning) (s : List Char) : m.after (Text.normalize s) = m.after s := by
  rw [← after_thinned (Text.thinned_letters _), Text.letters_normalize,
    after_thinned (Text.thinned_letters s)]

/-! ### What a source says -/

/-- Plain text continues the beginnings. -/
theorem after_text {s : List Char} (h : Text.Plain s) (m : Meaning) :
    m.after s = ⟨m.choices, crossed m.heads [Text.letters s]⟩ := by
  induction s generalizing m with
  | nil =>
    show m = _
    rw [show Text.letters [] = [] from rfl, crossed_unit]
  | cons c s ih =>
    obtain ⟨hc, hs⟩ := List.forall_mem_cons.mp h
    rw [after_cons, Token.ofChar_eq_plain hc, step_plain, ih hs, crossed_assoc]
    simp [crossed, ← Text.letters_append]

/-- The source of a node continues the beginnings as the node does. -/
def Continues (n : Node) : Prop :=
  ∀ m : Meaning, m.after n.source = ⟨m.choices, crossed m.heads n.letters⟩

/-- Nodes that continue the beginnings do so one after the other. -/
theorem after_flatMap {ns : List Node} (h : ∀ n ∈ ns, Continues n) (m : Meaning) :
    m.after (ns.flatMap Node.source) = ⟨m.choices, crossed m.heads (Node.lettersAll ns)⟩ := by
  induction ns generalizing m with
  | nil =>
    show m = _
    rw [Node.lettersAll, crossed_unit]
  | cons n ns ih =>
    rw [List.forall_mem_cons] at h
    rw [List.flatMap_cons, after_append, h.1, ih h.2, crossed_assoc]
    rfl

/-- The options of a choice, one after the other, up to its closing brace. -/
theorem after_intercalate {ns : List Node} (hne : ns ≠ []) (h : ∀ n ∈ ns, Continues n)
    (before said : List (List Char)) (choices : List OpenMeaning) :
    Meaning.after ⟨⟨before, said⟩ :: choices, [[]]⟩
        (['|'].intercalate (ns.map Node.source) ++ ['}']) =
      ⟨choices, crossed before (said ++ ns.flatMap Node.letters)⟩ := by
  induction ns generalizing said with
  | nil => exact absurd rfl hne
  | cons n ns ih =>
    rw [List.forall_mem_cons] at h
    -- behind the last option stands the closing brace, behind any other a bar
    cases ns with
    | nil =>
      rw [List.map_singleton, List.intercalate_singleton, after_append, h.1, unit_crossed,
        List.flatMap_singleton]
      rfl
    | cons n' ns =>
      rw [List.map_cons, List.map_cons, List.intercalate_cons_cons, List.append_assoc,
        List.append_assoc, List.singleton_append, after_append, h.1, unit_crossed,
        ← List.map_cons, List.flatMap_cons, ← List.append_assoc]
      exact ih (List.cons_ne_nil n' ns) h.2 (said ++ n.letters)

/-- **The source of a tree says what the tree says**, if the literals are plain. -/
theorem after_source {n : Node} (h : ∀ s ∈ n.literals, Text.Plain s) : Continues n := by
  refine Node.literal_induction (motive := Continues) ?text ?option ?choice ?root h
  case text =>
    intro s hs
    exact after_text hs
  case option =>
    intro s ns hs ih m
    rw [Node.source_option, after_append, after_text hs, Node.letters_option, ← crossed_assoc]
    exact after_flatMap ih _
  case choice =>
    intro ns ih m
    rw [Node.source_choice, after_cons]
    by_cases hne : ns = []
    · -- without options the braces stand around a single empty one
      subst hne
      show (⟨m.choices, crossed m.heads [[]]⟩ : Meaning) = _
      rfl
    · rw [Node.letters_choice hne]
      exact after_intercalate hne ih m.heads [] m.choices
  case root =>
    intro ns ih m
    rw [Node.source_root, Node.letters_root]
    exact after_flatMap ih m

end Meaning

/-! ## The one pass -/

namespace OnePass

open Node (letters lettersAll)

/-- What the nodes of an open choice say. -/
def OpenChoice.meaning (c : OpenChoice) : OpenMeaning :=
  ⟨lettersAll c.before.reverse, c.options.reverse.flatMap letters⟩

/-- What the nodes that were made say. -/
def State.meaning (st : State) : Meaning :=
  ⟨st.choices.map OpenChoice.meaning, lettersAll st.nodes.reverse⟩

/-- The node that stands first was added last. -/
theorem lettersAll_reverse_cons (n : Node) (ns : List Node) :
    lettersAll (n :: ns).reverse = crossed (lettersAll ns.reverse) n.letters := by
  rw [List.reverse_cons, Node.lettersAll_append, Node.lettersAll_singleton]

/-- A text that is added is said last. -/
theorem lettersAll_addText (s : List Char) (ns : List Node) :
    lettersAll (addText s ns).reverse = crossed (lettersAll ns.reverse) [Text.letters s] := by
  cases ns with
  | nil => exact lettersAll_reverse_cons (.text s) []
  | cons n ns =>
    cases n with
    | text t =>
      have hJoined : (Node.text (t ++ s)).letters = crossed [Text.letters t] [Text.letters s] := by
        simp [crossed, Text.letters_append]
      rw [addText, lettersAll_reverse_cons, lettersAll_reverse_cons, crossed_assoc, hJoined]
      rfl
    | _ => exact lettersAll_reverse_cons (.text s) _

/-- Trimming a sequence at either end takes no letter. -/
theorem lettersAll_trimFirst {trim : List Char → List Char}
    (hTrim : ∀ s, Text.letters (trim s) = Text.letters s) (ns : List Node) :
    lettersAll (trimFirst trim ns) = lettersAll ns ∧
      lettersAll (trimFirst trim ns).reverse = lettersAll ns.reverse := by
  unfold trimFirst
  split
  · next s ns =>
    rw [lettersAll, lettersAll_reverse_cons]
    split
    · next hBlank =>
      rw [Node.letters_text_of_allBlank hBlank, unit_crossed, crossed_unit]
      exact ⟨rfl, rfl⟩
    · rw [lettersAll, lettersAll_reverse_cons, Node.letters_text, Node.letters_text, hTrim]
      exact ⟨rfl, rfl⟩
  · exact ⟨rfl, rfl⟩

/-- An option says what its sequence said. -/
theorem letters_endOption (nodes : List Node) :
    (endOption nodes).letters = lettersAll nodes.reverse := by
  have hStart : ∀ s, Text.letters (Text.trimStart s) = Text.letters s := fun s =>
    (Text.thinned_trimStart s).filter_eq
  have hEnd : ∀ s, Text.letters (Text.trimEnd s) = Text.letters s := fun s =>
    (Text.thinned_trimEnd s).filter_eq
  have hOption := endOption_reverse nodes.reverse
  rw [List.reverse_reverse, trimLast, List.reverse_reverse] at hOption
  rw [hOption, Node.letters_wrapOption, (lettersAll_trimFirst hStart _).1,
    (lettersAll_trimFirst hEnd _).2]

/-- A choice that is closed says what its options say, after what was said before it. -/
theorem lettersAll_closeChoice (c : OpenChoice) (nodes : List Node) :
    lettersAll (closeChoice c nodes).reverse =
      crossed c.meaning.before (c.meaning.said ++ lettersAll nodes.reverse) := by
  rw [closeChoice, lettersAll_reverse_cons, Node.letters_choice (by simp), List.reverse_cons,
    List.flatMap_append, List.flatMap_singleton, letters_endOption]
  rfl

/-- **One token is taken in the same way with nodes and without.** -/
theorem meaning_step {t : Token} {isLast : Bool} (h : t = .opening → isLast = false)
    (st : State) : (step st t isLast).meaning = st.meaning.step t := by
  obtain ⟨choices, nodes⟩ := st
  -- a token that stands for itself is added to the text at hand
  have hText : State.meaning ⟨choices, addText t.spelling nodes⟩ =
      ⟨choices.map OpenChoice.meaning,
        crossed (lettersAll nodes.reverse) [Text.letters t.spelling]⟩ := by
    rw [State.meaning, lettersAll_addText]
  cases t with
  | opening =>
    rw [h rfl]
    rfl
  | bar =>
    cases choices with
    | nil => exact hText
    | cons c choices =>
      simp [step, State.meaning, Meaning.step, OpenChoice.meaning, letters_endOption,
        Node.lettersAll]
  | closing =>
    cases choices with
    | nil => exact hText
    | cons c choices =>
      simp only [step, State.meaning, lettersAll_closeChoice]
      rfl
  | _ => exact hText

/-- **The one pass says what the text says.** -/
theorem meaning_scan {ts : List Token} (h : ts.getLast? ≠ some .opening) (st : State) :
    (scan st ts).meaning = ts.foldl Meaning.step st.meaning := by
  induction ts generalizing st with
  | nil => rfl
  | cons t ts ih =>
    have hStep : t = .opening → ts.isEmpty = false := by
      rintro rfl
      cases ts with
      | nil => exact absurd rfl h
      | cons t' ts => rfl
    have hRest : ts.getLast? ≠ some .opening := by
      cases ts with
      | nil => simp
      | cons t' ts => exact h
    rw [scan, ih hRest, meaning_step hStep, List.foldl_cons]

end OnePass

/-! ## What is read -/

/-- A character of the normal form that is no blank is in the text. -/
theorem Text.mem_normalize {s : List Char} {c : Char} (h : c ∈ normalize s)
    (hBlank : isBlank c = false) : c ∈ s := by
  have hLetter : c ∈ letters (normalize s) := List.mem_filter.mpr ⟨h, by rw [hBlank]; rfl⟩
  rw [letters_normalize] at hLetter
  exact (List.mem_filter.mp hLetter).1

/-- **The tree of a text says what the text says**, if it closes its choices. -/
theorem letters_root_ofText {maxDepth : Nat} {s : List Char} {said : List (List Char)}
    (hBackslash : '\\' ∉ s)
    (hDeep : ∀ d ∈ (Reading.ofText maxDepth s).diagnostics, d.isNestingTooDeep = false)
    (hSaid : Meaning.start.after s = ⟨[], said⟩) :
    (Reading.ofText maxDepth s).root.letters = said := by
  have hTokens : (Token.ofText (Text.normalize s)).foldl Meaning.step Meaning.start =
      ⟨[], said⟩ := by
    have hNormal : '\\' ∉ Text.normalize s := fun h =>
      hBackslash (Text.mem_normalize h (by decide))
    rw [Token.ofText_eq_map hNormal, ← hSaid, ← Meaning.after_normalize]
    rfl
  -- a brace that opens at the very end would leave a choice open
  have hLast : (Token.ofText (Text.normalize s)).getLast? ≠ some .opening := by
    intro h
    obtain ⟨ts, hts⟩ := List.getLast?_eq_some_iff.mp h
    rw [hts, List.foldl_append] at hTokens
    exact absurd (congrArg Meaning.choices hTokens) (List.cons_ne_nil _ _)
  obtain ⟨choices, nodes, hState⟩ : ∃ choices nodes,
      OnePass.scan ⟨[], []⟩ (Token.ofText (Text.normalize s)) = ⟨choices, nodes⟩ := ⟨_, _, rfl⟩
  have hScan : OnePass.State.meaning ⟨choices, nodes⟩ = ⟨[], said⟩ := by
    rw [← hState, OnePass.meaning_scan hLast]
    exact hTokens
  have hComplete := OnePass.complete_ofText (Text.endsBlank_normalize s) hDeep
  obtain ⟨hChoices, hNodes⟩ := Meaning.mk.inj hScan
  obtain rfl := List.map_eq_nil_iff.mp hChoices
  rw [hState] at hComplete
  show (Node.root (nodesOf maxDepth (Lexeme.ofText (Text.normalize s)))).letters = said
  rw [← hComplete, Node.letters_root]
  exact hNodes

end Spintax
