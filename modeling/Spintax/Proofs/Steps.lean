import Mathlib.Data.List.Forall2
import Spintax.Proofs.Slices

/-!
# Spintax — steps of reading by positions

A reading that ends without a fault *yields* a result and diagnostics
(`Checked.Yields`). What single steps yield follows from the run in front of which
they stand: the mark there tells the lexeme, in the middle of a plain character as
well, and an escape is as long as the pair or the lone backslash. A scan goes over a
lexeme in one step, and over the bytes of a plain character one by one.

* `Checked.Yields.bind`, `Checked.Yields.loop` — steps one after the other;
* `Checked.yields_markAt_run`, `Checked.yields_skipEscape` — steps in front of a lexeme.
-/

namespace Spintax

namespace Checked

open Lexeme (Run spellAll)

/-! ## Ending without a fault -/

variable {α β σ : Type}

/-- A reading that ends without a fault, with a result and more diagnostics. -/
def Yields (m : ReadM α) (x : α) (reports : List Diagnostic) : Prop :=
  ∀ ds, m.run ds = .ok (x, ds ++ reports)

/-- A result by itself reports nothing. -/
theorem yields_pure (x : α) : Yields (pure x) x [] := by
  intro ds
  rw [List.append_nil]
  rfl

/-- What is read one after the other is reported one after the other. -/
theorem Yields.bind {m : ReadM α} {f : α → ReadM β} {x : α} {y : β}
    {reports more : List Diagnostic} (h : Yields m x reports) (hf : Yields (f x) y more) :
    Yields (m >>= f) y (reports ++ more) := by
  intro ds
  rw [StateT.run_bind, h ds, ← List.append_assoc]
  exact hf (ds ++ reports)

/-- A step without diagnostics of its own. -/
theorem Yields.step {m : ReadM α} {f : α → ReadM β} {x : α} {y : β} {reports : List Diagnostic}
    (h : Yields m x []) (hf : Yields (f x) y reports) : Yields (m >>= f) y reports :=
  h.bind hf

/-- A result that is only put into another form. -/
theorem Yields.bind_pure {m : ReadM α} {f : α → β} {x : α} {reports : List Diagnostic}
    (h : Yields m x reports) : Yields (m >>= fun a => pure (f a)) (f x) reports := by
  have hBind := h.bind (f := fun a => pure (f a)) (yields_pure (f x))
  rwa [List.append_nil] at hBind

theorem yields_report (d : Diagnostic) : Yields (report d) () [d] := fun _ => rfl

theorem yields_add {src : Source} {m n : Nat} (h : m + n ≤ src.largest) :
    Yields (add src m n) (m + n) [] := by
  rw [add, if_pos h]
  exact yields_pure _

theorem yields_sub {m n : Nat} (h : n ≤ m) : Yields (sub m n) (m - n) [] := by
  rw [sub, if_pos h]
  exact yields_pure _

theorem yields_slice {src : Source} {start stop : Nat} {part : List Char}
    (h : Text.slice? src.text start stop = some part) : Yields (slice src start stop) part [] := by
  rw [slice, h]
  exact yields_pure _

theorem yields_markAt {src : Source} {i : Nat} {b : UInt8}
    (h : (Text.bytes src.text)[i]? = some b) : Yields (markAt src i) (.ofByte b) [] := by
  rw [markAt, h]
  exact yields_pure _

/-- Several readings, one after the other. -/
theorem yields_mapM {ι : Type} {f : ι → ReadM α} {g : β → α} {r : β → List Diagnostic}
    {is : List ι} {ys : List β} (h : List.Forall₂ (fun i y => Yields (f i) (g y) (r y)) is ys) :
    Yields (is.mapM f) (ys.map g) (ys.flatMap r) := by
  induction h with
  | nil => exact yields_pure _
  | cons hHead _ ih =>
    rw [List.mapM_cons, List.flatMap_cons]
    exact hHead.bind ih.bind_pure

/-! ## Loops -/

section Loops

variable {running : σ → Bool} {pos : σ → Nat} {stop : Nat} {step : σ → ReadM σ}

theorem yields_loop_end {st : σ} (h : running st = false) :
    Yields (loop running pos stop step st) st [] := by
  rw [loop, h]
  exact yields_pure _

/-- A step forward, and then the rest of the scan. -/
theorem Yields.loop {st next last : σ} {reports more : List Diagnostic} (hRun : running st = true)
    (hStep : Yields (step st) next reports) (hForward : pos st < pos next)
    (hStop : pos next ≤ stop) (hRest : Yields (loop running pos stop step next) last more) :
    Yields (loop running pos stop step st) last (reports ++ more) := by
  rw [Checked.loop, if_pos hRun]
  refine hStep.bind ?_
  rw [if_pos ⟨hForward, hStop⟩]
  exact hRest

/-- Several positions that are gone over one by one. -/
theorem yields_loop_over (st : Nat → σ) {last : σ} {reports : List Diagnostic} {count : Nat}
    (hPos : ∀ j ≤ count, pos (st j) = pos (st 0) + j) (hRun : ∀ j < count, running (st j) = true)
    (hStep : ∀ j < count, Yields (step (st j)) (st (j + 1)) [])
    (hStop : pos (st 0) + count ≤ stop)
    (hRest : Yields (Checked.loop running pos stop step (st count)) last reports) :
    Yields (Checked.loop running pos stop step (st 0)) last reports := by
  induction count generalizing st with
  | zero => exact hRest
  | succ count ih =>
    have hNext : pos (st (0 + 1)) = pos (st 0) + 1 := hPos 1 (by omega)
    refine Yields.loop (hRun 0 (by omega)) (hStep 0 (by omega)) (by omega) (by omega) ?_
    refine ih (fun j => st (j + 1)) (fun j hj => ?_) (fun j hj => hRun (j + 1) (by omega))
      (fun j hj => hStep (j + 1) (by omega)) (by omega) hRest
    rw [hPos (j + 1) (by omega), hNext]
    omega

end Loops

/-! ## Lexemes -/

/-- What the first byte of a token is for the scan. -/
def markOf : Token → Mark
  | .plain _ => .other
  | .pair _ | .backslash => .escape
  | .opening => .opening
  | .closing => .closing
  | .bar => .bar

variable {src : Source} {i stop : Nat} {l : Lexeme} {ls : List Lexeme}

/-- The bytes of a plain character mean nothing, wherever the scan stands in it. -/
theorem yields_markAt_plain (h : Run src.text i (l :: ls) stop) {c : Char}
    (hTok : l.token = .plain c) {j : Nat} (hj : j < Text.byteLength l.spelling) :
    Yields (markAt src (i + j)) .other [] := by
  have hSpell : Text.bytes l.spelling = String.utf8EncodeChar c := by
    rw [Lexeme.spelling_of_token hTok, Token.spelling, Text.bytes, List.flatMap_singleton]
  have hLt : j < (String.utf8EncodeChar c).length := by
    rwa [← hSpell, Text.length_bytes]
  obtain ⟨hEscape, hPlain⟩ := h.plain l List.mem_cons_self c hTok
  have hByte := h.getElem?_bytes hj
  rw [hSpell, List.getElem?_eq_getElem hLt] at hByte
  rw [← Text.ofByte_eq_other hEscape hPlain (List.getElem_mem hLt)]
  exact yields_markAt hByte

/-- In front of a lexeme the scan sees which one it is. -/
theorem yields_markAt_run (h : Run src.text i (l :: ls) stop) :
    Yields (markAt src i) (markOf l.token) [] := by
  have hSize : 0 < Text.byteLength l.spelling := Text.byteLength_pos l.spelling_ne_nil
  have hByte := h.getElem?_bytes hSize
  rw [Nat.add_zero] at hByte
  cases hTok : l.token with
  | plain c => exact yields_markAt_plain h hTok hSize
  | pair c =>
    rw [Lexeme.spelling_of_token hTok] at hByte
    exact yields_markAt hByte
  | _ =>
    rw [Lexeme.spelling_of_token hTok] at hByte
    exact yields_markAt hByte

/-- A backslash is skipped with the character behind it, and at the end alone. -/
theorem yields_skipEscape (h : Run src.text i (l :: ls) stop)
    (hLargest : Text.byteLength src.text ≤ src.largest) (hMark : markOf l.token = .escape) :
    Yields (skipEscape src i stop) (i + Text.byteLength l.spelling) [] := by
  have hEnd := h.end_le
  have hStop := h.stop_le
  cases hTok : l.token with
  | pair c =>
    have hSize : Text.byteLength l.spelling = 1 + c.utf8Size := by
      rw [Lexeme.spelling_of_token hTok]
      rfl
    have hPos := c.utf8Size_pos
    obtain ⟨rest, hRest⟩ := h.exists_slice?_of_pair hTok
    refine (yields_add (by omega)).step ?_
    rw [if_neg (by omega)]
    refine (yields_slice hRest).step ((yields_add ?_).step ?_)
    · show i + 1 + c.utf8Size ≤ _
      omega
    · have hMin : min (i + 1 + c.utf8Size) stop = i + Text.byteLength l.spelling := by omega
      rw [← hMin]
      exact yields_pure _
  | backslash =>
    have hSize : Text.byteLength l.spelling = 1 := by
      rw [Lexeme.spelling_of_token hTok]
      rfl
    -- the part ends behind it
    have hTail := h.tail
    rw [h.eq_nil_of_backslash hTok] at hTail
    have hEq : stop = i + Text.byteLength l.spelling := hTail.stop_eq
    refine (yields_add (by omega)).step ?_
    rw [if_pos (by omega), ← hEq]
    exact yields_pure _
  | _ =>
    rw [hTok] at hMark
    exact absurd hMark (by simp [markOf])

end Checked

end Spintax
