import Spintax.Proofs.Steps

/-!
# Spintax — reading by positions has no fault

Reading by positions goes over bytes, and it comes back to parts of the text whose
ends it has found before. It never goes wrong, whatever the text and the limit on
the depth: every byte that is asked for is there, every part starts and ends between
characters, no difference is below zero, no sum too large, and every step goes
forward inside the part it belongs to. What it reads is what reading by lexemes
reads.

Each scan is followed lexeme by lexeme, along the cutting of the run in front of
which it stands.

* `Checked.exists_cut` — the scan for the end of a choice;
* `Checked.exists_walk` — the scan of a sequence;
* `Checked.yields_sequence` — a part of the text, by induction on the levels left;
* `Checked.read_eq_ok` — reading a text.
-/

namespace Spintax

/-- A token opens one brace at most. -/
theorem Token.levelAfter_le {m n : Nat} {t : Token} (h : t.levelAfter m = some n) :
    n ≤ m + 1 := by
  rw [← Token.openAfter_of_levelAfter h]
  cases t <;> simp only [Token.openAfter] <;> omega

namespace Checked

open Lexeme (Run spellAll)

variable {src : Source} {stop : Nat} {l : Lexeme} {ls : List Lexeme}

/-! ## The end of a choice -/

/-- The options of a choice stand in the text, each in a part of its own that lies
between two positions. -/
def Parts (s : List Char) (low high : Nat) (parts : List (Nat × Nat))
    (options : List (List Lexeme)) : Prop :=
  List.Forall₂ (fun part o => low ≤ part.1 ∧ part.2 ≤ high ∧ Run s part.1 o part.2) parts options

/-- Where there is an option, its part lies between the two positions. -/
theorem Parts.low_le {s : List Char} {low high : Nat} {parts : List (Nat × Nat)}
    {o : List Lexeme} {os : List (List Lexeme)} (h : Parts s low high parts (o :: os)) :
    low ≤ high := by
  obtain ⟨part, parts, ⟨hLow, hHigh, hRun⟩, -, -⟩ := List.forall₂_cons_right_iff.mp h
  exact hLow.trans (hRun.le.trans hHigh)

namespace Cut

variable {c last : Cut} {n m : Nat}

/-- The options that were found up to the end, and the position after the choice. -/
def finish (stop : Nat) (c : Cut) : List (Nat × Nat) × Nat :=
  match c.next? with
  | some next => (c.ended, next)
  | none => (c.ended ++ [(c.start, stop)], stop)

/-- As long as no option has ended the choice, the loop goes on up to `stop`. -/
theorem isRunning_eq (hNext : c.next? = none) (hPos : c.pos < stop) :
    c.isRunning stop = true := by
  simp [isRunning, hNext, hPos]

/-- A lexeme that belongs to the option at hand. -/
theorem yields_scan_of_levelAfter (hLargest : Text.byteLength src.text ≤ src.largest)
    (h : Run src.text c.pos (l :: ls) stop) (hNext : c.next? = none) (hLevel : c.level = n + 1)
    (hLe : c.level ≤ c.pos) (hAfter : l.token.levelAfter n = some m)
    (hRest : Yields
      (scan src stop { c with pos := c.pos + Text.byteLength l.spelling, level := m + 1 })
      last []) :
    Yields (scan src stop c) last [] := by
  have hEnd := h.end_le
  have hStop := h.stop_le
  have hSize : 0 < Text.byteLength l.spelling := Text.byteLength_pos l.spelling_ne_nil
  have hMark := yields_markAt_run h
  -- but for plain characters, one step goes over the lexeme
  have hOne : Yields (step src stop c)
      { c with pos := c.pos + Text.byteLength l.spelling, level := m + 1 } [] →
      Yields (scan src stop c) last [] := fun hStep =>
    Yields.loop (isRunning_eq hNext (by omega)) hStep (by show c.pos < c.pos + _; omega) hEnd hRest
  cases hTok : l.token with
  | plain k =>
    rw [hTok] at hAfter
    obtain rfl := Option.some.inj hAfter
    rw [← hLevel, scan] at hRest
    rw [scan]
    refine yields_loop_over (fun j => { c with pos := c.pos + j }) (fun _ _ => rfl)
      (fun j hj => isRunning_eq hNext (by show c.pos + j < stop; omega)) (fun j hj => ?_) hEnd hRest
    have hNo : c.pos + j + 1 ≤ src.largest := by omega
    exact (yields_markAt_plain h hTok hj).step (yields_add hNo).bind_pure
  | pair _ | backslash =>
    have hSkip := yields_skipEscape h hLargest (by rw [hTok]; rfl)
    rw [hTok] at hAfter hMark
    obtain rfl := Option.some.inj hAfter
    rw [← hLevel] at hOne
    exact hOne (hMark.step hSkip.bind_pure)
  | opening =>
    rw [hTok] at hAfter hMark
    obtain rfl := Option.some.inj hAfter
    rw [← hLevel, Lexeme.byteLength_of_isStructural (.inl hTok)] at hOne
    exact hOne (hMark.step ((yields_add (by omega)).step (yields_add (by omega)).bind_pure))
  | closing =>
    -- one that stays inside the option closes a brace of the option
    rw [hTok] at hAfter hMark
    obtain ⟨k, rfl⟩ : ∃ k, n = k + 1 := Nat.exists_eq_succ_of_ne_zero fun hZero => by
      simp [Token.levelAfter, hZero] at hAfter
    obtain rfl : k = m := by simpa [Token.levelAfter] using hAfter
    refine hOne ?_
    rw [Lexeme.byteLength_of_isStructural (.inr (.inl hTok))]
    refine hMark.step ((yields_sub (by omega)).step ((yields_add (by omega)).step ?_))
    rw [hLevel, Nat.add_sub_cancel, if_neg (by omega)]
    exact yields_pure _
  | bar =>
    rw [hTok] at hAfter hMark
    obtain ⟨k, rfl⟩ : ∃ k, n = k + 1 := Nat.exists_eq_succ_of_ne_zero fun hZero => by
      simp [Token.levelAfter, hZero] at hAfter
    obtain rfl : k + 1 = m := by simpa [Token.levelAfter] using hAfter
    refine hOne ?_
    rw [Lexeme.byteLength_of_isStructural (.inr (.inr hTok))]
    refine hMark.step ((yields_add (by omega)).step ?_)
    rw [if_neg (by omega), ← hLevel]
    exact yields_pure _

/-- A closing brace outside of all braces ends the choice. -/
theorem yields_scan_closing (hLargest : Text.byteLength src.text ≤ src.largest)
    (h : Run src.text c.pos (l :: ls) stop) (hNext : c.next? = none) (hLevel : c.level = 1)
    (hTok : l.token = .closing) :
    Yields (scan src stop c)
      ⟨c.pos + 1, 0, c.start, c.ended ++ [(c.start, c.pos)], some (c.pos + 1)⟩ [] := by
  have hEnd := (h.tail_of_isStructural (.inr (.inl hTok))).le
  have hStop := h.stop_le
  have hMark := yields_markAt_run h
  rw [hTok] at hMark
  have hStep : Yields (step src stop c)
      ⟨c.pos + 1, 0, c.start, c.ended ++ [(c.start, c.pos)], some (c.pos + 1)⟩ [] := by
    refine hMark.step ((yields_sub (by omega)).step ((yields_add (by omega)).step ?_))
    rw [hLevel, if_pos rfl]
    exact yields_pure _
  exact Yields.loop (isRunning_eq hNext (by omega)) hStep (Nat.lt_succ_self c.pos) hEnd
    (yields_loop_end rfl)

/-- A bar outside of all braces ends the option. -/
theorem yields_scan_bar (hLargest : Text.byteLength src.text ≤ src.largest)
    (h : Run src.text c.pos (l :: ls) stop) (hNext : c.next? = none) (hLevel : c.level = 1)
    (hTok : l.token = .bar)
    (hRest : Yields
      (scan src stop ⟨c.pos + 1, 1, c.pos + 1, c.ended ++ [(c.start, c.pos)], none⟩) last []) :
    Yields (scan src stop c) last [] := by
  have hEnd := (h.tail_of_isStructural (.inr (.inr hTok))).le
  have hStop := h.stop_le
  have hMark := yields_markAt_run h
  rw [hTok] at hMark
  have hStep : Yields (step src stop c)
      ⟨c.pos + 1, 1, c.pos + 1, c.ended ++ [(c.start, c.pos)], none⟩ [] := by
    refine hMark.step ((yields_add (by omega)).step ?_)
    rw [hLevel, if_pos rfl, hNext]
    exact yields_pure _
  exact Yields.loop (isRunning_eq hNext (by omega)) hStep (Nat.lt_succ_self c.pos) hEnd hRest

end Cut

/-- **The scan for the end of a choice** finds the options where they stand, the one
at hand with the lexemes `p` that it has gone over, and what follows the choice. -/
theorem exists_cut (hLargest : Text.byteLength src.text ≤ src.largest) {c : Cut} {n : Nat}
    {p : List Lexeme} (h : Run src.text c.start (p ++ ls) stop)
    (hPos : c.pos = c.start + Text.byteLength (spellAll p)) (hNext : c.next? = none)
    (hLevel : c.level = n + 1) (hLe : c.level ≤ c.pos) :
    ∃ last parts next, Yields (Cut.scan src stop c) last [] ∧
      last.next?.isSome = (Body.ofLexemes n ls).rest?.isSome ∧
      last.finish stop = (c.ended ++ parts, next) ∧
      Parts src.text c.start next parts
        ((p ++ (Body.ofLexemes n ls).first) :: (Body.ofLexemes n ls).others) ∧
      Run src.text next (Body.ofLexemes n ls).rest stop := by
  induction ls generalizing c n p with
  | nil =>
    obtain ⟨-, hHere⟩ := h.split hPos
    have hEnd : stop = c.pos := hHere.stop_eq
    refine ⟨c, [(c.start, stop)], stop, yields_loop_end (by simp [Cut.isRunning, hEnd]), ?_, ?_,
      .cons ⟨Nat.le_refl _, Nat.le_refl _, h⟩ .nil, ?_⟩
    · rw [hNext]
      rfl
    · rw [Cut.finish, hNext]
    · rwa [← hEnd] at hHere
  | cons l ls ih =>
    obtain ⟨hOption, hHere⟩ := h.split hPos
    cases hAfter : l.token.levelAfter n with
    | some m =>
      -- the lexeme goes to the option at hand
      have hSize : 0 < Text.byteLength l.spelling := Text.byteLength_pos l.spelling_ne_nil
      have hUp := Token.levelAfter_le hAfter
      obtain ⟨last, parts, next, hScan, hRest⟩ := ih (p := p ++ [l])
        (c := { c with pos := c.pos + Text.byteLength l.spelling, level := m + 1 })
        (by rwa [List.append_assoc]) (by simp [hPos, spellAll, Nat.add_assoc]) hNext rfl
        (by show m + 1 ≤ c.pos + _; omega)
      rw [List.append_assoc] at hRest
      rw [Body.ofLexemes_cons_of_levelAfter hAfter]
      exact ⟨last, parts, next,
        Cut.yields_scan_of_levelAfter hLargest hHere hNext hLevel hLe hAfter hScan, hRest⟩
    | none =>
      obtain ⟨rfl, hTok | hTok⟩ := Token.levelAfter_eq_none.mp hAfter
      · have hTail := hHere.tail_of_isStructural (.inr (.inl hTok))
        have hBody : Body.ofLexemes 0 (l :: ls) = ⟨[], [], some ls⟩ :=
          Body.ofLexemes_append_closing (o := []) rfl hTok ls
        rw [hBody, List.append_nil]
        exact ⟨_, [(c.start, c.pos)], c.pos + 1,
          Cut.yields_scan_closing hLargest hHere hNext hLevel hTok, rfl, rfl,
          .cons ⟨Nat.le_refl _, Nat.le_succ _, hOption⟩ .nil, hTail⟩
      · have hTail := hHere.tail_of_isStructural (.inr (.inr hTok))
        have hBody : Body.ofLexemes 0 (l :: ls) =
            ⟨[], (Body.ofLexemes 0 ls).options, (Body.ofLexemes 0 ls).rest?⟩ :=
          Body.ofLexemes_append_bar (o := []) rfl hTok ls
        obtain ⟨last, parts, next, hScan, hSome, hFinish, hParts, hRest⟩ := ih (p := [])
          (c := ⟨c.pos + 1, 1, c.pos + 1, c.ended ++ [(c.start, c.pos)], none⟩)
          hTail rfl rfl rfl (Nat.succ_le_succ (Nat.zero_le _))
        -- the option ends here, and the next one starts behind the bar
        have hNextLe : c.pos + 1 ≤ next := hParts.low_le
        have hStart : c.start ≤ c.pos := hOption.le
        rw [hBody, List.append_nil]
        refine ⟨last, (c.start, c.pos) :: parts, next,
          Cut.yields_scan_bar hLargest hHere hNext hLevel hTok hScan, hSome,
          by rw [hFinish]; simp, .cons ⟨Nat.le_refl _, by omega, hOption⟩ ?_, hRest⟩
        exact hParts.imp fun part o h => ⟨hStart.trans ((Nat.le_succ _).trans h.1), h.2⟩

/-- The report on a choice, made before those inside of its options. -/
def choiceReport (brace : Nat) (b : Body) : List Diagnostic :=
  if b.rest?.isSome then [] else [.unterminatedChoice brace]

/-- **Cutting a choice into segments** finds the parts of its options and the position
behind it, and reports the choice if it is not closed. -/
theorem exists_segments (hLargest : Text.byteLength src.text ≤ src.largest) {brace : Nat}
    (h : Run src.text (brace + 1) ls stop) :
    ∃ parts next,
      Yields (segments src brace (brace + 1) stop) (parts, next)
          (choiceReport brace (Body.ofLexemes 0 ls)) ∧
        Parts src.text (brace + 1) next parts (Body.ofLexemes 0 ls).options ∧
        Run src.text next (Body.ofLexemes 0 ls).rest stop := by
  obtain ⟨last, parts, next, hScan, hSome, hFinish, hParts, hRest⟩ :=
    exists_cut (p := []) (c := ⟨brace + 1, 1, brace + 1, [], none⟩) hLargest h rfl rfl rfl
      (Nat.succ_le_succ (Nat.zero_le _))
  refine ⟨parts, next, hScan.step ?_, hParts, hRest⟩
  rw [choiceReport, ← hSome]
  rw [List.nil_append] at hFinish
  unfold Cut.finish at hFinish
  split at hFinish
  · next _ hNext =>
    rw [hNext, ← hFinish]
    exact yields_pure _
  · next hNext =>
    rw [hNext, ← hFinish]
    exact (yields_report _).bind (yields_pure _)

/-! ## Choices and options -/

/-- Reading an option at its two positions is reading its run. -/
def ReadsOption (src : Source) (option : Nat → Nat → ReadM Node) (node : List Lexeme → Node)
    (reports : List Lexeme → List Diagnostic) : Prop :=
  ∀ start o stop, Run src.text start o stop → Yields (option start stop) (node o) (reports o)

variable {option : Nat → Nat → ReadM Node} {node : List Lexeme → Node}
  {inside : List Lexeme → List Diagnostic}

/-- A brace at the very end opens nothing and is reported. -/
theorem yields_choice_stray {brace : Nat} (hLargest : brace + 1 ≤ src.largest) :
    Yields (choice src option brace (brace + 1)) (none, brace + 1) [.strayOpen brace] := by
  refine (yields_add hLargest).step ?_
  rw [if_pos (Nat.le_refl _)]
  exact (yields_report _).bind (yields_pure _)

/-- **Reading a choice** reads each of its options in its part of the text. The report on
the choice itself comes before those from inside. -/
theorem exists_choice (hLargest : Text.byteLength src.text ≤ src.largest) {brace : Nat}
    (h : Run src.text (brace + 1) ls stop) (hne : ls ≠ [])
    (hOption : ReadsOption src option node inside) :
    ∃ next,
      Yields (choice src option brace stop)
          (some (.choice ((Body.ofLexemes 0 ls).options.map node)), next)
          (choiceReport brace (Body.ofLexemes 0 ls) ++
            (Body.ofLexemes 0 ls).options.flatMap inside) ∧
        Run src.text next (Body.ofLexemes 0 ls).rest stop ∧ brace < next := by
  obtain ⟨parts, next, hSegments, hParts, hRest⟩ := exists_segments hLargest h
  have hStop := h.stop_le
  have hEq := h.stop_eq
  have hSize : 0 < Text.byteLength (spellAll ls) :=
    Text.byteLength_pos (mt Lexeme.spellAll_eq_nil.mp hne)
  have hOptions : Yields (parts.mapM fun part =>
      if brace < part.1 ∧ part.2 ≤ next then option part.1 part.2
      else throw (.outside part.1 part.2))
      ((Body.ofLexemes 0 ls).options.map node) ((Body.ofLexemes 0 ls).options.flatMap inside) := by
    refine yields_mapM (hParts.imp fun part o h => ?_)
    rw [if_pos ⟨h.1, h.2.1⟩]
    exact hOption _ _ _ h.2.2
  refine ⟨next, (yields_add (by omega)).step ?_, hRest, hParts.low_le⟩
  rw [if_neg (by omega)]
  exact hSegments.bind hOptions.bind_pure

/-- An option is read from what trimming leaves of its run. -/
theorem readsOption_option (hLargest : Text.byteLength src.text ≤ src.largest)
    {read : Nat → Nat → ReadM (List Node)} (nodes : List Lexeme → List Node)
    (reports : List Lexeme → List Diagnostic)
    (hRead : ∀ start ls stop, Run src.text start ls stop →
      Yields (read start stop) (nodes ls) (reports ls)) :
    ReadsOption src (Checked.option src read) (optionNode nodes) (optionReports reports) := by
  intro start o stop h
  obtain ⟨hStart, hEnd, -⟩ := Text.byteLength_trim (spellAll o)
  have hStop := h.stop_le
  have hEq := h.stop_eq
  -- each sum and difference of positions stays within the run
  refine (yields_slice h.slice?_eq).step ((yields_sub hStart).step ((yields_add (by omega)).step
    ((yields_sub hEnd).step ((yields_sub (by omega)).step ?_))))
  by_cases hnil : Lexeme.trim o = []
  · -- nothing but blanks, and the two positions have passed each other
    have hBlank : Text.trimStart (spellAll o) = [] :=
      Text.trimStart_eq_nil (by rw [← Lexeme.spellAll_trim, hnil]; rfl)
    rw [hBlank, if_pos (by rw [Text.byteLength_nil]; omega), optionNode, optionReports, hnil]
    exact yields_pure _
  · have hTrim := h.trim hnil
    have hSize : 0 < Text.byteLength (spellAll (Lexeme.trim o)) :=
      Text.byteLength_pos (mt Lexeme.spellAll_eq_nil.mp hnil)
    have hTrimEq := hTrim.stop_eq
    rw [if_neg (by omega), optionNode, optionReports]
    split
    · next hEmpty => exact absurd hEmpty hnil
    · exact (hRead _ _ _ hTrim).bind_pure

/-! ## Sequences -/

namespace Walk

variable {w last : Walk} {reports : List Diagnostic}

/-- A lexeme that stands for itself. -/
theorem yields_scan_literal (hLargest : Text.byteLength src.text ≤ src.largest)
    {choice : Nat → ReadM (Option Node × Nat)} (h : Run src.text w.pos (l :: ls) stop)
    (hTok : l.token ≠ .opening)
    (hRest : Yields (scan src stop choice { w with pos := w.pos + Text.byteLength l.spelling }) last
      reports) :
    Yields (scan src stop choice w) last (Item.literalReport l ++ reports) := by
  have hEnd := h.end_le
  have hStop := h.stop_le
  have hSize : 0 < Text.byteLength l.spelling := Text.byteLength_pos l.spelling_ne_nil
  have hMark := yields_markAt_run h
  -- but for plain characters, one step goes over the lexeme
  have hOne : Yields (step src stop choice w) { w with pos := w.pos + Text.byteLength l.spelling }
      (Item.literalReport l) →
      Yields (scan src stop choice w) last (Item.literalReport l ++ reports) := fun hStep =>
    Yields.loop (by simpa using by omega) hStep (by show w.pos < w.pos + _; omega) hEnd hRest
  rw [Item.literalReport] at hOne ⊢
  cases ht : l.token with
  | opening => exact absurd ht hTok
  | plain c =>
    rw [scan] at hRest ⊢
    refine yields_loop_over (fun j => { w with pos := w.pos + j }) (fun _ _ => rfl)
      (fun j hj => by simp only [decide_eq_true_eq]; omega) (fun j hj => ?_) hEnd hRest
    have hNo : w.pos + j + 1 ≤ src.largest := by omega
    exact (yields_markAt_plain h ht hj).step (yields_add hNo).bind_pure
  | pair _ | backslash =>
    have hSkip := yields_skipEscape h hLargest (by rw [ht]; rfl)
    rw [ht] at hMark hOne
    exact hOne (hMark.step hSkip.bind_pure)
  | closing =>
    have hPos := h.pos_eq
    rw [ht] at hMark hOne
    rw [Lexeme.byteLength_of_isStructural (.inr (.inl ht))] at hOne
    refine hOne (hMark.step ?_)
    rw [hPos]
    exact (yields_report _).bind (yields_add (by omega)).bind_pure
  | bar =>
    rw [ht] at hMark hOne
    rw [Lexeme.byteLength_of_isStructural (.inr (.inr ht))] at hOne
    exact hOne (hMark.step (yields_add (by omega)).bind_pure)

/-- A brace at the very end. -/
theorem yields_scan_stray (hLargest : Text.byteLength src.text ≤ src.largest)
    (h : Run src.text w.pos [l] stop) (hTok : l.token = .opening)
    {text : List Char} (hText : Text.slice? src.text w.textStart w.pos = some text) :
    Yields (scan src stop (choice src option · stop) w)
      ⟨w.pos + 1, w.pos + 1, w.pending ++ text ++ ['{'], w.nodes⟩ [.strayOpen l.pos] := by
  have hStop := h.stop_le
  have hMark := yields_markAt_run h
  have hEnd : stop = w.pos + 1 := (h.tail_of_isStructural (.inl hTok)).stop_eq
  rw [hTok] at hMark
  have hStep : Yields (step src stop (choice src option · stop) w)
      ⟨w.pos + 1, w.pos + 1, w.pending ++ text ++ ['{'], w.nodes⟩ [.strayOpen l.pos] := by
    refine hMark.step ((yields_slice hText).step ?_)
    rw [h.pos_eq, hEnd]
    exact (yields_choice_stray (by omega)).bind (yields_pure _)
  exact Yields.loop (by simpa using by omega) hStep (Nat.lt_succ_self w.pos)
    (Nat.le_of_eq hEnd.symm) (yields_loop_end (by simp [hEnd]))

/-- A brace with something behind it. -/
theorem exists_scan_choice (hLargest : Text.byteLength src.text ≤ src.largest)
    (hOption : ReadsOption src option node inside) (h : Run src.text w.pos (l :: ls) stop)
    (hTok : l.token = .opening) (hne : ls ≠ []) {text : List Char}
    (hText : Text.slice? src.text w.textStart w.pos = some text) :
    ∃ next, Run src.text next (Body.ofLexemes 0 ls).rest stop ∧
      ∀ {last : Walk} {reports : List Diagnostic},
        Yields (scan src stop (choice src option · stop)
          ⟨next, next, [], w.nodes ++ Node.consText (w.pending ++ text) [] ++
            [.choice ((Body.ofLexemes 0 ls).options.map node)]⟩) last reports →
        Yields (scan src stop (choice src option · stop) w) last
          (choiceReport l.pos (Body.ofLexemes 0 ls) ++
            (Body.ofLexemes 0 ls).options.flatMap inside ++ reports) := by
  have hMark := yields_markAt_run h
  rw [hTok] at hMark
  obtain ⟨next, hChoice, hRest, hLt⟩ :=
    exists_choice hLargest (h.tail_of_isStructural (.inl hTok)) hne hOption
  have hNext := hRest.le
  -- one round of the loop reads the choice, and leaves less to read
  have hStep : Yields (step src stop (choice src option · stop) w)
      ⟨next, next, [], w.nodes ++ Node.consText (w.pending ++ text) [] ++
        [.choice ((Body.ofLexemes 0 ls).options.map node)]⟩
      (choiceReport w.pos (Body.ofLexemes 0 ls) ++
        (Body.ofLexemes 0 ls).options.flatMap inside ++ []) :=
    hMark.step ((yields_slice hText).step (hChoice.bind (yields_pure _)))
  rw [List.append_nil, ← h.pos_eq] at hStep
  exact ⟨next, hRest, fun hScan => Yields.loop (by simpa using by omega) hStep hLt hNext hScan⟩

/-- The nodes that the scan has found when it has come to the end. -/
def Ends (src : Source) (stop : Nat) (w : Walk) (nodes : List Node) : Prop :=
  ∃ text, Text.slice? src.text w.textStart stop = some text ∧
    w.nodes ++ Node.consText (w.pending ++ text) [] = nodes

end Walk

/-- **The scan of a sequence** finds its nodes, with the lexemes `p` in front that it
has gone over and that are text. -/
theorem exists_walk (hLargest : Text.byteLength src.text ≤ src.largest) {levels : Nat}
    (hOption : ReadsOption src option (optionNode (nodesOf levels))
      (optionReports (reportsOf src.maxDepth levels)))
    {w : Walk} {p : List Lexeme} (h : Run src.text w.textStart (p ++ ls) stop)
    (hPos : w.pos = w.textStart + Text.byteLength (spellAll p)) :
    ∃ last,
      Yields (Walk.scan src stop (choice src option · stop) w) last
          (reportsOf src.maxDepth (levels + 1) ls) ∧
        last.Ends src stop
          (w.nodes ++ Node.consText (w.pending ++ spellAll p) (nodesOf (levels + 1) ls)) := by
  induction ls using Lexeme.run_induction generalizing w p with
  | nil =>
    obtain ⟨hText, hHere⟩ := h.split hPos
    have hEnd : stop = w.pos := hHere.stop_eq
    rw [reportsOf_nil, nodesOf_nil]
    exact ⟨w, yields_loop_end (by simp [hEnd]), spellAll p, by rw [hEnd, hText.slice?_eq], rfl⟩
  | literal l ls hTok ih =>
    obtain ⟨-, hHere⟩ := h.split hPos
    obtain ⟨last, hScan, hEnds⟩ := ih (p := p ++ [l])
      (w := { w with pos := w.pos + Text.byteLength l.spelling })
      (by rwa [List.append_assoc]) (by simp [hPos, spellAll, Nat.add_assoc])
    have hSpell : spellAll (p ++ [l]) = spellAll p ++ l.spelling := by simp [spellAll]
    rw [hSpell] at hEnds
    rw [reportsOf_literal hTok, nodesOf_literal hTok, ← Node.consText_append, List.append_assoc]
    exact ⟨last, Walk.yields_scan_literal hLargest hHere hTok hScan, hEnds⟩
  | stray l hTok =>
    obtain ⟨hText, hHere⟩ := h.split hPos
    have hTail := hHere.tail_of_isStructural (.inl hTok)
    rw [reportsOf_stray hTok]
    refine ⟨_, Walk.yields_scan_stray hLargest hHere hTok hText.slice?_eq, [], hTail.slice?_eq, ?_⟩
    -- the brace joins the text in front of it
    rw [nodesOf_singleton, Lexeme.spelling_of_token hTok, Node.consText_text, List.append_nil,
      Node.consText_of_ne_nil (by simp)]
    rfl
  | closed l ls r hTok hr ih =>
    obtain ⟨hText, hHere⟩ := h.split hPos
    obtain ⟨next, hRest, hGo⟩ := Walk.exists_scan_choice hLargest hOption hHere hTok
      (Body.ne_nil_of_rest hr) hText.slice?_eq
    rw [Body.rest, hr] at hRest
    obtain ⟨last, hScan, hEnds⟩ := ih (p := [])
      (w := ⟨next, next, [], w.nodes ++ Node.consText (w.pending ++ spellAll p) [] ++
        [.choice ((Body.ofLexemes 0 ls).options.map (optionNode (nodesOf levels)))]⟩) hRest rfl
    have hAll := hGo hScan
    rw [choiceReport, hr] at hAll
    rw [reportsOf_closed hTok hr, nodesOf_closed hTok hr, Node.consText_choice]
    exact ⟨last, hAll, by simpa [spellAll, Node.consText_nil] using hEnds⟩
  | unclosed l ls hTok hne hr =>
    obtain ⟨hText, hHere⟩ := h.split hPos
    obtain ⟨next, hRest, hGo⟩ := Walk.exists_scan_choice hLargest hOption hHere hTok hne
      hText.slice?_eq
    rw [Body.rest, hr, Option.getD_none] at hRest
    -- nothing is left behind the choice
    have hEnd : stop = next := hRest.stop_eq
    have hScan := hGo (yields_loop_end (by simp [hEnd]))
    rw [choiceReport, hr, List.append_nil] at hScan
    rw [reportsOf_unclosed hTok hne hr, nodesOf_unclosed hTok hne hr, Node.consText_choice]
    exact ⟨_, hScan, [], hRest.slice?_eq, by simp [Node.consText_nil]⟩

/-- **Reading a part of the text** at its two positions is reading its run. -/
theorem yields_sequence (hLargest : Text.byteLength src.text ≤ src.largest)
    (hDepth : src.maxDepth ≤ src.largest) {levels depth : Nat}
    (hLevels : depth + levels = src.maxDepth) {start : Nat} (h : Run src.text start ls stop) :
    Yields (sequence src depth start stop) (nodesOf levels ls)
      (reportsOf src.maxDepth levels ls) := by
  induction levels generalizing depth start ls stop with
  | zero =>
    have hStop := h.stop_le
    have hEq := h.stop_eq
    rw [sequence, if_pos (by omega), nodesOf, reportsOf, h.firstBrace?_eq]
    refine (yields_slice h.slice?_eq).step ?_
    cases hFirst : Text.findBrace? (spellAll ls) with
    | none => exact (yields_slice h.slice?_eq).bind_pure
    | some offset =>
      have hOffset := Text.findBrace?_le hFirst
      exact (yields_add (by omega)).step
        ((yields_report _).bind (yields_slice h.slice?_eq).bind_pure)
  | succ levels ih =>
    -- the levels settle the options, and the scan of the sequence everything else
    have hOption := readsOption_option hLargest (nodesOf levels) (reportsOf src.maxDepth levels)
      fun start ls stop h => ih (by omega : depth + 1 + levels = src.maxDepth) h
    have hDeeper : ReadsOption src
        (fun a b => do
          let _ ← add src depth 1
          Checked.option src (sequence src (depth + 1)) a b)
        (optionNode (nodesOf levels)) (optionReports (reportsOf src.maxDepth levels)) :=
      fun start o stop h => (yields_add (by omega)).step (hOption start o stop h)
    obtain ⟨last, hScan, text, hText, hNodes⟩ := exists_walk hLargest hDeeper (p := [])
      (w := ⟨start, start, [], []⟩) h rfl
    rw [sequence, if_neg (by omega), ← List.append_nil (reportsOf _ _ _),
      ← hNodes.trans (Node.consText_nil _)]
    exact hScan.bind (yields_slice hText).bind_pure

/-- **Reading by positions has no fault**: for every text and every limit on the depth,
as long as the bytes of the text and the levels can be counted, it ends, and what it
has read is what reading by lexemes reads. -/
theorem read_eq_ok (src : Source) (hLargest : Text.byteLength src.text ≤ src.largest)
    (hDepth : src.maxDepth ≤ src.largest) :
    read src = .ok (Reading.ofNormal src.maxDepth src.text) := by
  have hRun := yields_sequence hLargest hDepth (Nat.zero_add src.maxDepth)
    (Lexeme.run_ofText src.text)
  rw [read, hRun []]
  rfl

/-- The largest limit, with a line break, a character of two bytes and a blank that
trimming takes from its backslash. -/
theorem read_eq_ok_largest :
    Text.byteLength ['{', '\n', 'é', '|', '\\', ' ', '}', '{'] ≤ 2 ^ 64 - 1 ∧
      read ⟨['{', '\n', 'é', '|', '\\', ' ', '}', '{'], 2 ^ 64 - 1, 2 ^ 64 - 1⟩ =
        .ok ⟨['{', '\n', 'é', '|', '\\', ' ', '}', '{'],
          .root [.choice [.option ['é'] [], .option ['\\'] []], .text ['{']], [.strayOpen 8]⟩ :=
  ⟨by decide, (read_eq_ok _ (by decide) (by decide)).trans (by decide +kernel)⟩

end Checked

end Spintax
