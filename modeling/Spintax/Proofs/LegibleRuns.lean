import Spintax.Proofs.Conservation
import Spintax.Proofs.Legible

/-!
# Spintax — runs that give legible trees

A literal inside an option is made of the lexemes of its run. Two things can
make it illegible: a pair that loses its blank when the option is trimmed, and
a brace at the very end of the text that stands inside an open choice. A run
that is whole has no pair of the first kind, and the second needs a choice that
is not closed.

* `isLegibleAll_of_isWhole` — the nodes of a whole run are legible.
-/

namespace Spintax

/-! ## Tokens of a run -/

namespace Lexeme

/-- Whether each lexeme of a run is cut again where its spelling stands in
front of another text. -/
def Recut (ls : List Lexeme) : Prop :=
  ∀ l ∈ ls, l.token ≠ .backslash → ∀ s, Token.ofText (l.spelling ++ s) = l.token :: Token.ofText s

/-- The lexemes of a text are cut again as they stand. -/
theorem recut_ofText (s : List Char) : Recut (ofText s) := by
  intro l hl hLone b
  have hMem : l.token ∈ Token.ofText s := by
    have hMap := List.mem_map_of_mem (f := token) hl
    rwa [ofText, map_token_place] at hMap
  exact Token.ofText_append_of_mem hMem hLone b

theorem Recut.of_subset {ls ms : List Lexeme} (h : Recut ls) (hSub : ∀ l ∈ ms, l ∈ ls) : Recut ms :=
  fun l hl => h l (hSub l hl)

/-- Trimming leaves lexemes of the run, and the backslash of a pair that was cut. -/
theorem mem_trimEnd {ls : List Lexeme} {l : Lexeme} (h : l ∈ trimEnd ls) :
    l ∈ ls ∨ l.token = .backslash ∧ ∃ m ∈ ls, m.token.isWhole = false := by
  induction ls with
  | nil => exact absurd h (by simp [trimEnd])
  | cons m ms ih =>
    by_cases hnil : trimEnd ms = []
    · rw [trimEnd_cons_of_eq_nil hnil] at h
      unfold withoutTrailingBlank at h
      rcases m.token.withoutTrailingBlank_cases with hw | hw | ⟨c, hc, hw⟩
      · rw [hw] at h
        exact absurd h (by simp)
      · rw [hw] at h
        exact .inl (by rw [List.mem_singleton.mp h]; exact .head _)
      · -- a lone backslash comes from a pair with a blank
        have hCut : m.token.isWhole = false := by
          simp_all [Token.withoutTrailingBlank, Token.isWhole]
        rw [hw] at h
        exact .inr ⟨by rw [List.mem_singleton.mp h], m, List.mem_cons_self .., hCut⟩
    · rw [trimEnd_cons_of_ne_nil hnil] at h
      rcases List.mem_cons.mp h with rfl | h
      · exact .inl (List.mem_cons_self ..)
      · rcases ih h with hMem | ⟨hTok, k, hk, hCut⟩
        · exact .inl (List.mem_cons_of_mem m hMem)
        · exact .inr ⟨hTok, k, List.mem_cons_of_mem m hk, hCut⟩

/-- Trimming a run adds nothing to it but a lone backslash, for a pair that it cuts. -/
theorem mem_trim {ls : List Lexeme} {l : Lexeme} (h : l ∈ trim ls) :
    l ∈ ls ∨ l.token = .backslash ∧ ∃ m ∈ ls, m.token.isWhole = false := by
  have hDrop : ∀ m ∈ ls.dropWhile isBlank, m ∈ ls := fun m hm =>
    (List.dropWhile_suffix isBlank).subset hm
  rcases mem_trimEnd h with hMem | ⟨hTok, m, hm, hCut⟩
  · exact .inl (hDrop l hMem)
  · exact .inr ⟨hTok, m, hDrop m hm, hCut⟩

theorem Recut.trim {ls : List Lexeme} (h : Recut ls) : Recut (trim ls) := by
  intro l hl hLone
  exact h l ((mem_trim hl).resolve_right fun hCut => hLone hCut.1) hLone

/-- No pair of a whole run can be cut. -/
theorem isWhole_of_mem_trim {ls : List Lexeme} (h : ∀ l ∈ ls, l.token.isWhole = true) :
    ∀ l ∈ trim ls, l.token.isWhole = true := by
  intro l hl
  rcases mem_trim hl with hMem | ⟨-, m, hm, hCut⟩
  · exact h l hMem
  · rw [h m hm] at hCut
    exact absurd hCut (by simp)

/-- A trimmed run has nothing left to trim at its end. -/
theorem trimEnd_trim (ls : List Lexeme) : trimEnd (trim ls) = trim ls := by
  apply trimEnd_eq_self
  rw [spellAll_trim, Text.trimEnd_eq_self_iff]
  exact Text.endsBlank_trim _

end Lexeme

/-! ### Lone backslashes -/

/-- Where a lone backslash can only come last, it does so in every part that ends the
run. -/
theorem backslash_not_mem_of_suffix {ls r : List Lexeme}
    (h : .backslash ∉ (ls.map Lexeme.token).dropLast) (hSuffix : r <:+ ls) :
    .backslash ∉ (r.map Lexeme.token).dropLast := by
  obtain ⟨xs, rfl⟩ := hSuffix
  by_cases hnil : r = []
  · simp [hnil]
  · rw [List.map_append, List.dropLast_append_of_ne_nil (mt List.map_eq_nil_iff.mp hnil)] at h
    exact fun hMem => h (List.mem_append_right _ hMem)

namespace Lexeme

/-- Trimming leaves a backslash alone at the end only. -/
theorem backslash_not_mem_dropLast_trimEnd {ls : List Lexeme}
    (h : .backslash ∉ (ls.map token).dropLast) :
    .backslash ∉ ((trimEnd ls).map token).dropLast := by
  induction ls with
  | nil => simp [trimEnd]
  | cons l ls ih =>
    by_cases hnil : trimEnd ls = []
    · -- one lexeme at most is left
      rw [trimEnd_cons_of_eq_nil hnil]
      cases l.withoutTrailingBlank <;> simp
    · have hne : ls ≠ [] := by
        rintro rfl
        exact hnil rfl
      rw [List.map_cons, List.dropLast_cons_of_ne_nil (mt List.map_eq_nil_iff.mp hne),
        List.mem_cons, not_or] at h
      rw [trimEnd_cons_of_ne_nil hnil, List.map_cons,
        List.dropLast_cons_of_ne_nil (mt List.map_eq_nil_iff.mp hnil), List.mem_cons, not_or]
      exact ⟨h.1, ih h.2⟩

end Lexeme

/-! ## Legible runs -/

/-- One more lexeme in front of a sequence. -/
theorem isLegibleAll_consText {inOption : Bool} {l : Lexeme} (hRecut : Lexeme.Recut [l])
    (hLiteral : inOption = true → l.token.isLiteral = true) {ns : List Node}
    (h : Node.isLegibleAll inOption ns = true) :
    Node.isLegibleAll inOption (Node.consText l.spelling ns) = true := by
  have hText : ∀ t, Node.isLegible inOption (.text t) = true →
      Node.isLegible inOption (.text (l.spelling ++ t)) = true := by
    intro t ht
    cases inOption with
    | false => rfl
    | true =>
      -- cut again in front of the text, the lexeme adds its own token and no other
      have hTok := hLiteral rfl
      have hLone : l.token ≠ .backslash := by
        intro hLone
        rw [hLone] at hTok
        exact absurd hTok (by decide)
      have hCut := hRecut l (List.mem_singleton_self l) hLone t
      have ht : Text.isLegible t = true := ht
      have hBoth : Text.isLegible (l.spelling ++ t) = true := by
        rw [Text.isLegible, hCut, List.all_cons, hTok]
        exact ht
      exact hBoth
  rcases Node.consText_cases l.spelling_ne_nil ns with ⟨-, hEq⟩ | ⟨t, ns', rfl, hEq⟩
  · have hOne := hText [] (by cases inOption <;> rfl)
    rw [List.append_nil] at hOne
    rw [hEq, Node.isLegibleAll, hOne, h]
    rfl
  · rw [Node.isLegibleAll, Bool.and_eq_true] at h
    rw [hEq, Node.isLegibleAll, hText t h.1, h.2]
    rfl

/-- An option is legible if the nodes that it holds are. -/
theorem isLegible_wrapOption {ns : List Node} (h : Node.isLegibleAll true ns = true)
    (inOption : Bool) : Node.isLegible inOption (Node.wrapOption ns) = true := by
  have hFilter : ∀ ms, Node.isLegibleAll true ms = true →
      Node.isLegibleAll true (ms.filter fun n => !n.isBlankText) = true := by
    intro ms hms
    exact Node.isLegibleAll_iff.mpr fun n hn =>
      Node.isLegibleAll_iff.mp hms n (List.mem_filter.mp hn).1
  unfold Node.wrapOption
  split
  · next s ns =>
    rw [Node.isLegibleAll, Bool.and_eq_true] at h
    rw [Node.isLegible, hFilter ns h.2, Bool.and_true]
    exact h.1
  · rw [Node.isLegible, hFilter _ h]
    rfl

/-- A closed run does not end with a brace that opens. -/
theorem Lexeme.Closed.getLast?_ne_opening {ls : List Lexeme} (h : Lexeme.Closed ls) {l : Lexeme}
    (hLast : ls.getLast? = some l) : l.token ≠ .opening := by
  intro hTok
  obtain ⟨xs, rfl⟩ := List.getLast?_eq_some_iff.mp hLast
  rw [Lexeme.Closed, Lexeme.levelAfter_append, Option.bind_eq_some_iff] at h
  obtain ⟨m, -, hm⟩ := h
  rw [Lexeme.levelAfter_cons, hTok] at hm
  exact absurd hm (by simp [Token.levelAfter])

theorem getLast?_of_suffix {xs ys : List Lexeme} (h : xs <:+ ys) {l : Lexeme}
    (hLast : xs.getLast? = some l) : ys.getLast? = some l := by
  obtain ⟨zs, rfl⟩ := h
  rw [List.getLast?_append, hLast]
  rfl

/-- Whether a brace at the very end of a run, if there is one, is text at the
root: then no choice is left open. -/
def EndsWhole (inOption : Bool) (ds : List Diagnostic) (ls : List Lexeme) : Prop :=
  inOption = false ∧ unterminated ds = 0 ∨ ∀ l, ls.getLast? = some l → l.token ≠ .opening

/-- A part that ends the run, and leaves no more choices open, ends whole as well. -/
theorem EndsWhole.of_suffix {inOption : Bool} {ds es : List Diagnostic} {ls r : List Lexeme}
    (h : EndsWhole inOption ds ls) (hSuffix : r <:+ ls)
    (hCount : unterminated es ≤ unterminated ds) : EndsWhole inOption es r := by
  -- fewer choices are open in a part, and it has the same end
  rcases h with ⟨hRoot, hNone⟩ | hLast
  · exact .inl ⟨hRoot, by omega⟩
  · exact .inr fun l hl => hLast l (getLast?_of_suffix hSuffix hl)

/-- **The nodes of a whole run are legible**, if no brace at its very end stands
inside an open choice. -/
theorem isLegibleAll_of_isWhole {maxDepth depth : Nat} {ls : List Lexeme} {inOption : Bool}
    (hRecut : Lexeme.Recut ls) (hWhole : ∀ l ∈ ls, l.token.isWhole = true)
    (hTrim : Lexeme.trimEnd ls = ls)
    (hDeep : ∀ d ∈ reportsOf maxDepth depth ls, d.isNestingTooDeep = false)
    (hInside : inOption = true → ∃ k, Lexeme.levelAfter 0 ls = some k)
    (hEnd : EndsWhole inOption (reportsOf maxDepth depth ls) ls) :
    Node.isLegibleAll inOption (nodesOf depth ls) = true := by
  induction depth using Nat.strongRecOn generalizing ls inOption with
  | _ depth ihDepth =>
    -- an option is inside, and it is trimmed
    have hOption : ∀ d < depth, ∀ {o : List Lexeme} {k : Nat}, Lexeme.Recut o →
        (∀ l ∈ o, l.token.isWhole = true) → Lexeme.levelAfter 0 o = some k →
        (∀ r ∈ optionReports (reportsOf maxDepth d) o, r.isNestingTooDeep = false) →
        (∀ l, (Lexeme.trim o).getLast? = some l → l.token ≠ .opening) →
        Node.isLegible inOption (optionNode (nodesOf d) o) = true := by
      intro d hd o k hRecut hWhole hLevel hDeep hLast
      rw [optionReports_reportsOf] at hDeep
      rw [optionNode_eq_wrap]
      refine isLegible_wrapOption (ihDepth d hd hRecut.trim (Lexeme.isWhole_of_mem_trim hWhole)
        (Lexeme.trimEnd_trim o) hDeep (fun _ => ⟨k, ?_⟩) (.inr hLast)) inOption
      rw [Lexeme.levelAfter_trim, hLevel]
    induction ls using Lexeme.run_induction with
    | nil =>
      rw [nodesOf_nil]
      rfl
    | literal l ls hTok ih =>
      have hSuffix := List.suffix_cons l ls
      -- inside an option a bar or a closing brace would leave it
      have hStays : inOption = true → l.token.isLiteral = true ∧
          ∃ k, Lexeme.levelAfter 0 ls = some k := by
        intro hIn
        obtain ⟨k, hk⟩ := hInside hIn
        obtain ⟨hClosing, hBar, hk⟩ := Lexeme.levelAfter_of_literal hTok hk
        have hBackslash : l.token ≠ .backslash := by
          intro hBackslash
          have hWhole := hWhole l (List.mem_cons_self ..)
          rw [hBackslash] at hWhole
          exact absurd hWhole (by decide)
        exact ⟨Token.isLiteral_of_ne hTok hClosing hBar hBackslash, k, hk⟩
      rw [nodesOf_literal hTok]
      refine isLegibleAll_consText (hRecut.of_subset (by simp)) (fun hIn => (hStays hIn).1) ?_
      refine ih (hRecut.of_subset fun m hm => List.mem_cons_of_mem l hm)
        (fun m hm => hWhole m (List.mem_cons_of_mem l hm)) (Lexeme.trimEnd_of_suffix hTrim hSuffix)
        (deep_of_literal hTok hDeep) (fun hIn => (hStays hIn).2) ?_
      exact hEnd.of_suffix hSuffix (by rw [unterminated_literal hTok])
    | stray l hTok =>
      -- such a brace is text, which only matters inside an option
      rcases hEnd with ⟨rfl, -⟩ | hLast
      · obtain ⟨depth, rfl⟩ := exists_depth_of_deep hTok hDeep
        rw [nodesOf_singleton]
        rfl
      · exact absurd hTok (hLast l rfl)
    | closed l ls r hTok hr ih =>
      obtain ⟨depth, rfl⟩ := exists_depth_of_deep hTok hDeep
      have hSuffix := Body.suffix_cons_of_rest hr l
      rw [reportsOf_closed hTok hr] at hDeep hEnd
      have hRest := ih (hRecut.of_subset fun m hm => hSuffix.subset hm)
        (fun m hm => hWhole m (hSuffix.subset hm)) (Lexeme.trimEnd_of_suffix hTrim hSuffix)
        (fun d hd => hDeep d (List.mem_append_right _ hd)) (fun hIn => ?_)
        (hEnd.of_suffix hSuffix (by rw [unterminated_append]; omega))
      · rw [nodesOf_closed hTok hr, Node.isLegibleAll, hRest, Bool.and_true, Node.isLegible,
          Node.isLegibleAll_iff]
        intro n hn
        obtain ⟨o, ho, rfl⟩ := List.mem_map.mp hn
        -- closed options do not end with a brace that opens
        have hClosed := Body.closed_of_mem_options hr o ho
        have hMem : ∀ m ∈ o, m ∈ l :: ls := fun m hm =>
          List.mem_cons_of_mem l ((Body.infix_of_mem_options ho).subset hm)
        exact hOption depth (Nat.lt_succ_self depth) (hRecut.of_subset hMem)
          (fun m hm => hWhole m (hMem m hm)) hClosed
          (fun d hd => hDeep d (List.mem_append_left _ (List.mem_flatMap.mpr ⟨o, ho, hd⟩)))
          (fun x hx => hClosed.trim.getLast?_ne_opening hx)
      · obtain ⟨k, hk⟩ := hInside hIn
        exact ⟨k, Lexeme.levelAfter_of_choice hTok hr hk⟩
    | unclosed l ls hTok hne hr =>
      obtain ⟨depth, rfl⟩ := exists_depth_of_deep hTok hDeep
      rw [reportsOf_unclosed hTok hne hr] at hDeep hEnd
      -- a choice is open, so the run does not end with a brace that opens
      have hLast : ∀ x, ls.getLast? = some x → x.token ≠ .opening := by
        rcases hEnd with ⟨-, hNone⟩ | hLast
        · rw [unterminated, List.countP_cons_of_pos rfl] at hNone
          omega
        · exact fun x hx => hLast x (getLast?_of_suffix (List.suffix_cons l ls) hx)
      obtain ⟨init, last, hOptions, hInit, ⟨k, hk⟩, hSuffix⟩ := Body.exists_last hr
      have hTrimLast := Lexeme.trimEnd_of_suffix hTrim (hSuffix.trans (List.suffix_cons l ls))
      rw [nodesOf_unclosed hTok hne hr, Node.isLegibleAll, Node.isLegibleAll, Bool.and_true,
        Node.isLegible, Node.isLegibleAll_iff]
      intro n hn
      obtain ⟨o, ho, rfl⟩ := List.mem_map.mp hn
      have hMem : ∀ m ∈ o, m ∈ l :: ls := fun m hm =>
        List.mem_cons_of_mem l ((Body.infix_of_mem_options ho).subset hm)
      have hDeep : ∀ d ∈ optionReports (reportsOf maxDepth depth) o,
          d.isNestingTooDeep = false := fun d hd =>
        hDeep d (List.mem_cons_of_mem _ (List.mem_flatMap.mpr ⟨o, ho, hd⟩))
      have hOption := fun {k : Nat} hLevel hEnds =>
        hOption depth (Nat.lt_succ_self depth) (k := k) (hRecut.of_subset hMem)
          (fun m hm => hWhole m (hMem m hm)) hLevel hDeep hEnds
      rw [hOptions, List.mem_append, List.mem_singleton] at ho
      -- the last option ends where the run does, the others are closed
      rcases ho with ho | rfl
      · exact hOption (hInit o ho) fun x hx => (hInit o ho).trim.getLast?_ne_opening hx
      · refine hOption hk fun x hx => hLast x ?_
        rw [Lexeme.trim_eq_dropWhile_trimEnd, hTrimLast] at hx
        exact getLast?_of_suffix ((List.dropWhile_suffix Lexeme.isBlank).trans hSuffix) hx

end Spintax
