import Spintax.CommandLine.Run
import Spintax.Files.Memory
import Spintax.Proofs.CleanTexts

/-!
# Spintax — formatting a text

The command `format` shows what comes back from a text; with `--check` it says
whether the text is that already, and line breaks at its end do not count. What is
shown should pass the check. If the text was read without a report it does, unless
trimming cut a pair of it.

The commands are run here among files in memory. A session is followed statement by
statement: `Session.runOn_bind` goes on where a statement has come to a value.

* `Session.runOn` — what a session comes to;
* `CommandLine.runOn_readReported` — what a command reads, if there is nothing to report;
* `CommandLine.format_clean` — what `format` shows, and what the check says of it.
-/

namespace Spintax

/-! ## Sessions among files -/

namespace Session

variable {α β : Type}

/-- What a session comes to among the files, after what was written before it. -/
def runOn (session : Session (StateM MemoryFiles) α) (t : Transcript) (files : MemoryFiles) :
    (Except Failure α × Transcript) × MemoryFiles :=
  (session.run.run t).run files

variable {session : Session (StateM MemoryFiles) α} {t t' : Transcript}
  {files files' : MemoryFiles}

/-- A session that has got somewhere goes on from there. -/
theorem runOn_bind {a : α} (h : session.runOn t files = ((.ok a, t'), files'))
    (next : α → Session (StateM MemoryFiles) β) :
    (session >>= next).runOn t files = (next a).runOn t' files' := by
  rw [runOn] at h ⊢
  rw [ExceptT.run_bind, StateT.run_bind, StateT.run_bind, h]
  rfl

/-- To ask the files is to get their answer; nothing is written. -/
theorem runOn_ask (question : StateM MemoryFiles α) :
    (ask question).runOn t files = ((.ok (question.run files).1, t), (question.run files).2) :=
  rfl

/-- A request that is granted. -/
theorem runOn_request {answer : StateM MemoryFiles (Except FileError α)} {a : α}
    (h : answer.run files = (.ok a, files')) (message : FileError → String) :
    (request answer message).runOn t files = ((.ok a, t), files') := by
  rw [request, runOn_bind (runOn_ask answer), h]
  rfl

/-- A session that comes to its end. -/
theorem run_output {session : Session (StateM MemoryFiles) Unit}
    (h : session.runOn ⟨"", ""⟩ files = ((.ok (), t), files')) :
    session.output.run files = (⟨0, t.out, t.err⟩, files') := by
  rw [runOn] at h
  rw [output, StateT.run_bind, h]
  rfl

end Session

/-! ## What commands find -/

namespace MemoryFiles

/-- The project of the working directory, if its file makes sense. -/
def project? (files : MemoryFiles) : Option Project :=
  let path := Files.join files.workingPath Project.fileName
  if (files.kind? path).isSome then (files.read path).toOption.bind Project.ofText?
  else some Project.default

/-- The name of an input and its text, if it can be read. -/
def input? (files : MemoryFiles) : InputSource → Option (String × List Char)
  | .inline text => some ("<text>", text.toList)
  | .file path => (files.read path).toOption.map fun text => (path, text.toList)
  | .missing => none

/-- A command finds the text under the name, and a project in which choices may nest so
deep. -/
structure Offers (files : MemoryFiles) (maxDepth : Nat) (input : InputSource) (name : String)
    (text : List Char) : Prop where
  project : ∃ p, files.project? = some p ∧ p.editor.maxDepth = maxDepth
  input : files.input? input = some (name, text)

end MemoryFiles

namespace CommandLine

open Session (runOn runOn_bind runOn_ask runOn_request run_output)

variable {files : MemoryFiles} {t : Transcript} {input : InputSource} {name : String}
  {text : List Char} {maxDepth : Nat}

/-- A file that is there is read as it stands, and the files stay what they are. -/
theorem run_read {path text : String} (h : (files.read path).toOption = some text) :
    (FileAccess.read path : StateM MemoryFiles (Except FileError String)).run files =
      (.ok text, files) := by
  have hOk : files.read path = .ok text := by
    cases hRead : files.read path with
    | ok s =>
      rw [hRead] at h
      exact congrArg Except.ok (Option.some.inj h)
    | error e =>
      rw [hRead] at h
      exact absurd h (by simp [Except.toOption])
  exact congrArg (·, files) hOk

/-- The project of the files is loaded, and nothing is written. -/
theorem runOn_loadProject {p : Project} (h : files.project? = some p) :
    runOn loadProject t files = ((.ok p, t), files) := by
  have hPath : runOn (fromWorkingDirectory Project.fileName) t files =
      ((.ok (Files.join files.workingPath Project.fileName), t), files) := rfl
  have hThere : ∀ path, runOn (isThere path) t files =
      ((.ok (files.kind? path).isSome, t), files) := fun path => rfl
  rw [MemoryFiles.project?] at h
  rw [loadProject, runOn_bind hPath, runOn_bind (hThere _)]
  split
  · next hSome =>
    rw [if_pos hSome, Option.bind_eq_some_iff] at h
    obtain ⟨text, hText, hProject⟩ := h
    rw [runOn_bind (runOn_request (run_read hText) _), hProject]
    rfl
  · next hNone =>
    rw [if_neg hNone] at h
    obtain rfl := Option.some.inj h
    rfl

/-- The input is read, under the name that it has in messages. -/
theorem runOn_readInput (h : files.input? input = some (name, text)) :
    runOn (readInput input) t files = ((.ok (name, text), t), files) := by
  cases input with
  | missing => exact absurd h (by simp [MemoryFiles.input?])
  | inline s =>
    obtain ⟨rfl, rfl⟩ := Prod.mk.inj (Option.some.inj h)
    rfl
  | file path =>
    rw [MemoryFiles.input?, Option.map_eq_some_iff] at h
    obtain ⟨s, hs, hPair⟩ := h
    obtain ⟨rfl, rfl⟩ := Prod.mk.inj hPair
    have hRead : runOn (readNamed path) t files = ((.ok s, t), files) :=
      runOn_request (run_read hs) _
    rw [readInput, runOn_bind hRead]
    rfl

/-- What a command reads, if there is nothing to report. -/
theorem runOn_readReported (h : files.Offers maxDepth input name text)
    (hNone : (Reading.ofText maxDepth text).diagnostics = []) :
    ∃ p, runOn (readReported input) t files =
      ((.ok (p, name, text, Reading.ofText maxDepth text), t), files) := by
  obtain ⟨⟨p, hProject, rfl⟩, hInput⟩ := h
  refine ⟨p, ?_⟩
  rw [readReported, runOn_bind (runOn_loadProject hProject), runOn_bind (runOn_readInput hInput)]
  have hReport : runOn (reportDiagnostics name (p.editor.read text).diagnostics
      (p.editor.read text).normal) t files = ((.ok (), t), files) := by
    rw [Settings.read, reportDiagnostics, hNone]
    rfl
  exact runOn_bind hReport _

/-! ## The command -/

/-- What a command leaves behind that is run among the files, and the files then. -/
def runAmong (files : MemoryFiles) (chance : UInt64) (command : Command) : Output × MemoryFiles :=
  (runCommand chance command : Session (StateM MemoryFiles) Unit).output.run files

/-- For a text without a report, `format` shows what comes back from it. -/
theorem runAmong_format (h : files.Offers maxDepth input name text)
    (hNone : (Reading.ofText maxDepth text).diagnostics = []) (chance : UInt64) :
    runAmong files chance (.format input false) =
      (⟨0, String.ofList (rewritten maxDepth text) ++ "\n", ""⟩, files) := by
  obtain ⟨p, hRead⟩ := @runOn_readReported _ ⟨"", ""⟩ _ _ _ _ h hNone
  have hShow : runOn (runFormat input false) ⟨"", ""⟩ files =
      ((.ok (), ⟨"" ++ String.ofList (rewritten maxDepth text) ++ "\n", ""⟩), files) := by
    rw [runFormat, runOn_bind hRead]
    rfl
  rw [String.empty_append] at hShow
  exact run_output hShow

/-- For a text without a report, `format --check` accepts it if it is canonical. -/
theorem runAmong_format_check (h : files.Offers maxDepth input name text)
    (hNone : (Reading.ofText maxDepth text).diagnostics = [])
    (hCanonical : isCanonical text (rewritten maxDepth text) = true) (chance : UInt64) :
    runAmong files chance (.format input true) =
      (⟨0, "✓ " ++ name ++ " is canonical" ++ "\n", ""⟩, files) := by
  obtain ⟨p, hRead⟩ := @runOn_readReported _ ⟨"", ""⟩ _ _ _ _ h hNone
  have hCheck : runOn (runFormat input true) ⟨"", ""⟩ files =
      ((.ok (), ⟨"" ++ ("✓ " ++ name ++ " is canonical") ++ "\n", ""⟩), files) := by
    rw [rewritten] at hCanonical
    rw [runFormat, runOn_bind hRead]
    show runOn (if isCanonical text _ = true then _ else _) _ _ = _
    rw [if_pos hCanonical]
    rfl
  rw [String.empty_append] at hCheck
  exact run_output hCheck

/-! ## Line breaks at the end -/

section Breaks

variable {s breaks : List Char} (hNormal : Text.normalize s = s)
  (hBreaks : ∀ c ∈ breaks, c = '\r' ∨ c = '\n')

include hNormal hBreaks

/-- Line breaks behind a normal text are trimmed away. -/
theorem normalize_append_breaks : Text.normalize (s ++ breaks) = s := by
  have hBlank : Text.allBlank breaks = true :=
    List.all_eq_true.mpr fun c hc => Text.isBlank_of_break (hBreaks c hc)
  have hStart := Text.startsBlank_normalize s
  have hEnd := Text.endsBlank_normalize s
  have hLine := Text.isOneLine_normalize s
  rw [hNormal] at hStart hEnd hLine
  have hTrim : Text.trim (s ++ breaks) = s := by
    by_cases hnil : s = []
    · rw [hnil, List.nil_append, Text.trim, Text.allBlank_iff_trimStart.mp hBlank]
      rfl
    · have hFirst : Text.trimStart (s ++ breaks) = s ++ breaks := by
        rw [Text.trimStart_eq_self_iff, Text.startsBlank_append hnil, hStart]
      have hLast : Text.trimEnd breaks = [] := Text.allBlank_iff_trimEnd.mp hBlank
      rw [Text.trim, hFirst, Text.trimEnd_append, if_pos hLast]
      exact Text.trimEnd_eq_self_iff.mpr hEnd
  rw [Text.normalize, hTrim, Text.foldBreaks_eq_self hLine]

/-- The check does not see them. -/
theorem isCanonical_append_breaks : isCanonical (s ++ breaks) s = true := by
  have hLine := Text.isOneLine_normalize s
  rw [hNormal, Text.isOneLine, List.all_eq_true] at hLine
  have hBreaks' : ∀ c ∈ breaks.reverse, (c == '\r' || c == '\n') = true := by
    intro c hc
    rcases hBreaks c (List.mem_reverse.mp hc) with rfl | rfl <;> rfl
  -- the text itself is one line, so it does not end with a break
  have hSelf : s.rdropWhile (fun c => c == '\r' || c == '\n') = s := by
    refine List.rdropWhile_eq_self_iff.mpr fun hs => ?_
    have hLast := hLine (s.getLast hs) (List.getLast_mem hs)
    simpa using hLast
  rw [isCanonical, List.reverse_append, List.dropWhile_append_of_pos hBreaks', ← List.rdropWhile,
    hSelf, beq_self_eq_true]

end Breaks

/-! ## Texts without a report -/

/-- **A text without a report is formatted** to what comes back from it. That is read
without a report, and as the same tree, exactly when no pair of the text is cut; then it
passes the check, with line breaks behind it or without them. -/
theorem format_clean {maxDepth : Nat} {s : List Char}
    (hNone : (Reading.ofText maxDepth s).diagnostics = []) (chance : UInt64) :
    (∀ files input name, MemoryFiles.Offers files maxDepth input name s →
      runAmong files chance (.format input false) =
        (⟨0, String.ofList (rewritten maxDepth s) ++ "\n", ""⟩, files)) ∧
    ((Reading.ofText maxDepth (rewritten maxDepth s)).diagnostics = [] ∧
        (Reading.ofText maxDepth (rewritten maxDepth s)).root =
          (Reading.ofText maxDepth s).root ↔
      Text.cutsPair s = false) ∧
    (Text.cutsPair s = false →
      ∀ breaks : List Char, (∀ c ∈ breaks, c = '\r' ∨ c = '\n') → ∀ files input name,
        MemoryFiles.Offers files maxDepth input name (rewritten maxDepth s ++ breaks) →
        runAmong files chance (.format input true) =
          (⟨0, "✓ " ++ name ++ " is canonical" ++ "\n", ""⟩, files)) := by
  refine ⟨fun files input name hOffers => runAmong_format hOffers hNone chance,
    clean_rewritten_iff hNone, fun hWhole breaks hBreaks files input name hOffers => ?_⟩
  obtain ⟨hNone', hRoot⟩ := (clean_rewritten_iff hNone).mpr hWhole
  have hNormal := normalize_rewritten maxDepth s
  -- with line breaks behind it the text is read as it is without them
  have hRead : Reading.ofText maxDepth (rewritten maxDepth s ++ breaks) =
      Reading.ofText maxDepth (rewritten maxDepth s) := by
    rw [Reading.ofText, Reading.ofText, normalize_append_breaks hNormal hBreaks, hNormal]
  have hText : rewritten maxDepth (rewritten maxDepth s ++ breaks) = rewritten maxDepth s := by
    rw [rewritten, hRead, hRoot]
    rfl
  refine runAmong_format_check hOffers (by rw [hRead, hNone']) ?_ chance
  rw [hText]
  exact isCanonical_append_breaks hNormal hBreaks

/-- The blank of a pair that does not end its option stays. -/
theorem format_clean_of_pair :
    (runAmong (.ofList ["home"] [("a.choice", "\x7b a\\ b | c \x7d\n")] []) 0
        (.format (.file "a.choice") false)).1 = ⟨0, "\x7ba\\ b|c\x7d\n", ""⟩ ∧
      (runAmong (.ofList ["home"] [("a.choice", "\x7ba\\ b|c\x7d\r\n")] []) 0
        (.format (.file "a.choice") true)).1 = ⟨0, "✓ a.choice is canonical\n", ""⟩ := by
  have hNone : (Reading.ofText 128 "\x7b a\\ b | c \x7d\n".toList).diagnostics = [] := by
    decide +kernel
  have hText : rewritten 128 "\x7b a\\ b | c \x7d\n".toList = "\x7ba\\ b|c\x7d".toList := by
    decide +kernel
  obtain ⟨hShow, -, hCheck⟩ := format_clean hNone 0
  have hShow := hShow (.ofList ["home"] [("a.choice", "\x7b a\\ b | c \x7d\n")] [])
    (.file "a.choice") "a.choice" ⟨⟨.default, by decide +kernel, rfl⟩, by decide +kernel⟩
  have hCheck := hCheck (by decide +kernel) ['\r', '\n'] (by simp)
    (.ofList ["home"] [("a.choice", "\x7ba\\ b|c\x7d\r\n")] []) (.file "a.choice") "a.choice"
    ⟨⟨.default, by decide +kernel, rfl⟩, by rw [hText]; decide +kernel⟩
  rw [hText] at hShow
  exact ⟨congrArg Prod.fst hShow, congrArg Prod.fst hCheck⟩

end CommandLine

end Spintax
