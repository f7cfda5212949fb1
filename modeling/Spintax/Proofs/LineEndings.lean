import Spintax.Proofs.Normal
import Spintax.Reading

/-!
# Spintax — line endings

A text says the same whatever ends its lines. As trimming and folding may change
places, the ends of a text need no thought of their own, and it is left to show
that its breaks fold to the same spaces when one convention ends all of its lines
(`foldBreaks_write`).

* `IsNormal` — one line without a blank at either end; normalizing leaves just
  these texts as they are (`normalize_eq_self_iff`);
* `LineEnding.write` — a text with its line feeds replaced by another ending;
* `normalize_lawful` — normal forms are normal, are read as the text that they
  come from, and do not tell the line endings apart.
-/

namespace Spintax.Text

/-! ## Normal texts -/

/-- One line without a blank at either end. -/
structure IsNormal (s : List Char) : Prop where
  no_carriageReturn : '\r' ∉ s
  no_lineFeed : '\n' ∉ s
  not_startsBlank : startsBlank s = false
  not_endsBlank : endsBlank s = false

/-- A text is in one line if it has neither of the two characters that break lines. -/
theorem isOneLine_iff {s : List Char} : isOneLine s = true ↔ '\r' ∉ s ∧ '\n' ∉ s := by
  rw [isOneLine, List.all_eq_true]
  constructor
  · intro h
    exact ⟨fun hc => by simpa using h _ hc, fun hc => by simpa using h _ hc⟩
  · rintro ⟨hReturn, hFeed⟩ c hc
    have h₁ : c ≠ '\r' := fun h => hReturn (h ▸ hc)
    have h₂ : c ≠ '\n' := fun h => hFeed (h ▸ hc)
    simp [h₁, h₂]

/-- **The normal form of a text is normal.** -/
theorem isNormal_normalize (s : List Char) : IsNormal (normalize s) := by
  obtain ⟨hReturn, hFeed⟩ := isOneLine_iff.mp (isOneLine_normalize s)
  exact ⟨hReturn, hFeed, startsBlank_normalize s, endsBlank_normalize s⟩

/-- Normalizing changes every text but the normal ones. -/
theorem normalize_eq_self_iff {s : List Char} : normalize s = s ↔ IsNormal s := by
  constructor
  · intro h
    rw [← h]
    exact isNormal_normalize s
  · intro h
    have hLine : isOneLine s = true := isOneLine_iff.mpr ⟨h.no_carriageReturn, h.no_lineFeed⟩
    exact normalize_eq_self hLine h.not_startsBlank h.not_endsBlank

/-! ## Conventions -/

/-- What ends the lines of a text. -/
inductive LineEnding where
  | lf
  | cr
  | crlf
deriving DecidableEq

namespace LineEnding

def spelling : LineEnding → List Char
  | .lf => ['\n']
  | .cr => ['\r']
  | .crlf => ['\r', '\n']

/-- A text with every line feed replaced by a line ending. -/
def write (e : LineEnding) (s : List Char) : List Char :=
  s.flatMap fun c => if c = '\n' then e.spelling else [c]

theorem write_cons (e : LineEnding) (c : Char) (s : List Char) :
    e.write (c :: s) = (if c = '\n' then e.spelling else [c]) ++ e.write s :=
  List.flatMap_cons

/-- Written with carriage returns alone, no text begins with a line feed. -/
theorem head?_write_cr (s : List Char) : (cr.write s).head? ≠ some '\n' := by
  cases s with
  | nil => simp [write]
  | cons c s =>
    rw [write_cons]
    split
    · simp [spelling]
    · next hc => simpa using hc

/-- A line ending is one break: a lone carriage return is not joined with what
comes next, since no line feed is left to come. -/
theorem foldBreaks_spelling (e : LineEnding) (s : List Char) :
    foldBreaks (e.spelling ++ e.write s) = ' ' :: foldBreaks (e.write s) := by
  cases e with
  | lf => exact foldBreaks_cons (by simp)
  | cr => exact foldBreaks_cons fun _ => head?_write_cr s
  | crlf => rfl

/-- Folding the line breaks does not tell the endings apart. -/
theorem foldBreaks_write (e : LineEnding) {s : List Char} (h : '\r' ∉ s) :
    foldBreaks (e.write s) = foldBreaks s := by
  induction s with
  | nil => rfl
  | cons c s ih =>
    have hReturn : c ≠ '\r' := by
      rintro rfl
      exact h List.mem_cons_self
    have hs : '\r' ∉ s := fun hMem => h (List.mem_cons_of_mem c hMem)
    rw [write_cons]
    split
    · next hFeed =>
      subst hFeed
      rw [foldBreaks_spelling, ih hs, foldBreaks_cons (by simp)]
      rfl
    · next hFeed =>
      rw [List.singleton_append, foldBreaks_cons_of_ne hReturn hFeed,
        foldBreaks_cons_of_ne hReturn hFeed, ih hs]

theorem normalize_write (e : LineEnding) {s : List Char} (h : '\r' ∉ s) :
    normalize (e.write s) = normalize s := by
  rw [normalize_eq_trim_foldBreaks, foldBreaks_write e h, ← normalize_eq_trim_foldBreaks]

end LineEnding

/-- **Normal forms are settled and blind to line endings.** The normal form of a text is one
line without blanks at its ends, and texts of this kind are the ones that are left alone; so
it is its own normal form and is read as the text is. If no carriage return stands in a text,
its normal form stays the same when another ending is written for each line feed. -/
theorem normalize_lawful (s : List Char) :
    IsNormal (normalize s) ∧ (normalize s = s ↔ IsNormal s) ∧
      normalize (normalize s) = normalize s ∧
      (∀ maxDepth, Reading.ofText maxDepth (normalize s) = Reading.ofText maxDepth s) ∧
      ('\r' ∉ s → ∀ e : LineEnding, normalize (e.write s) = normalize s) := by
  refine ⟨isNormal_normalize s, normalize_eq_self_iff, normalize_normalize s, ?_, ?_⟩
  · intro maxDepth
    rw [Reading.ofText, Reading.ofText, normalize_normalize]
  · intro hReturn e
    exact e.normalize_write hReturn

/-- Breaks at both ends and an empty line. -/
theorem normalize_lawful_of_empty_line :
    '\r' ∉ "\n one\n\ntwo \n".toList ∧
      LineEnding.crlf.write "\n one\n\ntwo \n".toList = "\r\n one\r\n\r\ntwo \r\n".toList ∧
      normalize "\r\n one\r\n\r\ntwo \r\n".toList = "one  two".toList ∧
      LineEnding.cr.write "\n one\n\ntwo \n".toList = "\r one\r\rtwo \r".toList ∧
      normalize "\r one\r\rtwo \r".toList = "one  two".toList := by
  have hReturn : '\r' ∉ "\n one\n\ntwo \n".toList := by decide
  have hNormal : normalize "\n one\n\ntwo \n".toList = "one  two".toList := by decide +kernel
  obtain ⟨-, -, -, -, hWrite⟩ := normalize_lawful "\n one\n\ntwo \n".toList
  exact ⟨hReturn, rfl, (hWrite hReturn .crlf).trans hNormal, rfl,
    (hWrite hReturn .cr).trans hNormal⟩

/-- With carriage returns in a text its line feeds may not be rewritten: this pair becomes
two breaks. -/
example : normalize (LineEnding.crlf.write "a\r\nb".toList) ≠ normalize "a\r\nb".toList := by
  decide +kernel

end Spintax.Text
