import Spintax.Reading

/-!
# Spintax — reading by byte positions

Reading once more, as it is done over the UTF-8 bytes of a text: braces, bars and
backslashes are looked for byte by byte, parts of the text are taken from one byte
position to another, and options are read again from the positions that were found.
All that can go wrong in this is checked and, where it does, a *fault*: a byte
behind the end, a part that starts or ends inside a character, a difference below
zero, a sum that is too large for a number, and a step that does not go forward or
goes past its end.

* `Fault` — what can go wrong;
* `Checked.loop` — a scan whose steps have to go forward;
* `Checked.skipEscape`, `Checked.segments`, `Checked.choice`, `Checked.option`,
  `Checked.sequence` — an escape, the options of a choice, a choice, an option, a
  part of the text;
* `Checked.read` — the whole.
-/

namespace Spintax

namespace Text

/-- The bytes of the UTF-8 form. -/
def bytes (s : List Char) : List UInt8 :=
  s.flatMap String.utf8EncodeChar

/-- A text in two parts, of which the first has so many bytes. There are none if
that many bytes end inside a character or behind the text. -/
def splitBytes? : Nat → List Char → Option (List Char × List Char)
  | 0, s => some ([], s)
  | _ + 1, [] => none
  | n + 1, c :: s =>
    if c.utf8Size ≤ n + 1 then
      (splitBytes? (n + 1 - c.utf8Size) s).map fun (t, u) => (c :: t, u)
    else
      none

/-- The part of a text from one byte position to another, if both lie between
characters and in this order. -/
def slice? (s : List Char) (start stop : Nat) : Option (List Char) :=
  if start ≤ stop then do
    let (_, rest) ← splitBytes? start s
    let (part, _) ← splitBytes? (stop - start) rest
    return part
  else
    none

/-- There is no position inside a character. -/
example : slice? ['é', 'b'] 1 3 = none := by decide

/-- The byte position of the first opening brace. -/
def findBrace? : List Char → Option Nat
  | [] => none
  | c :: s => if c = '{' then some 0 else (findBrace? s).map (c.utf8Size + ·)

end Text

/-- What can go wrong in reading by positions. -/
inductive Fault where
  /-- There is no byte at this position. -/
  | noByte (i : Nat)
  /-- Between these positions there is no part of the text. -/
  | noSlice (start stop : Nat)
  /-- The difference is below zero. -/
  | below (m n : Nat)
  /-- The sum is too large for a number. -/
  | above (m n : Nat)
  /-- The step from the first position to the second does not go forward, or it goes
  past the end. -/
  | stalled (i j : Nat)
  /-- The part between these positions is not inside of what it is a part of. -/
  | outside (start stop : Nat)
deriving DecidableEq

/-- What a byte is for the scan. -/
inductive Mark where
  | escape
  | opening
  | closing
  | bar
  | other
deriving DecidableEq

def Mark.ofByte (b : UInt8) : Mark :=
  if b = '\\'.toUInt8 then .escape
  else if b = '{'.toUInt8 then .opening
  else if b = '}'.toUInt8 then .closing
  else if b = '|'.toUInt8 then .bar
  else .other

/-- A text to read, and the bounds under which it is read. -/
structure Source where
  text : List Char
  maxDepth : Nat
  /-- The largest number that there is. -/
  largest : Nat

/-- Reading, which adds to the diagnostics as it goes, or ends with a fault. -/
abbrev ReadM := StateT (List Diagnostic) (Except Fault)

namespace Checked

/-! ## Single steps -/

def report (d : Diagnostic) : ReadM Unit :=
  modify (· ++ [d])

def add (src : Source) (m n : Nat) : ReadM Nat :=
  if m + n ≤ src.largest then pure (m + n) else throw (.above m n)

def sub (m n : Nat) : ReadM Nat :=
  if n ≤ m then pure (m - n) else throw (.below m n)

def markAt (src : Source) (i : Nat) : ReadM Mark :=
  match (Text.bytes src.text)[i]? with
  | some b => pure (.ofByte b)
  | none => throw (.noByte i)

def slice (src : Source) (start stop : Nat) : ReadM (List Char) :=
  match Text.slice? src.text start stop with
  | some part => pure part
  | none => throw (.noSlice start stop)

/-- Goes on from a state as long as `running` says so. Each step has to take the
position forward, and not past `stop`. -/
def loop {σ : Type} (running : σ → Bool) (pos : σ → Nat) (stop : Nat) (step : σ → ReadM σ)
    (st : σ) : ReadM σ :=
  if running st then do
    let next ← step st
    if pos st < pos next ∧ pos next ≤ stop then
      loop running pos stop step next
    else
      throw (.stalled (pos st) (pos next))
  else
    pure st
termination_by stop - pos st

/-- The position after a backslash and the character behind it, in a part that ends
at `stop`. -/
def skipEscape (src : Source) (i stop : Nat) : ReadM Nat := do
  let next ← add src i 1
  if stop ≤ next then
    return stop
  let rest ← slice src next (Text.byteLength src.text)
  let width := match rest with
    | c :: _ => c.utf8Size
    | [] => 1
  return min (← add src next width) stop

/-! ## Choices -/

/-- The scan for the end of a choice: the position, how many braces are open, where
the option at hand starts, the options that have ended, and the position after the
choice once its end is found. -/
structure Cut where
  pos : Nat
  level : Nat
  start : Nat
  ended : List (Nat × Nat)
  next? : Option Nat

namespace Cut

/-- Whether the end of the choice is still to be looked for. -/
def isRunning (stop : Nat) (c : Cut) : Bool :=
  c.next?.isNone && c.pos < stop

/-- One more byte, or one more escape. -/
def step (src : Source) (stop : Nat) (c : Cut) : ReadM Cut := do
  match ← markAt src c.pos with
  | .escape => return { c with pos := ← skipEscape src c.pos stop }
  | .opening =>
    let level ← add src c.level 1
    return { c with level, pos := ← add src c.pos 1 }
  | .closing =>
    let level ← sub c.level 1
    let pos ← add src c.pos 1
    if level = 0 then
      return { c with level, pos, ended := c.ended ++ [(c.start, c.pos)], next? := some pos }
    else
      return { c with level, pos }
  | .bar =>
    let pos ← add src c.pos 1
    -- a bar inside further braces belongs to the option
    if c.level = 1 then
      return { c with pos, ended := c.ended ++ [(c.start, c.pos)], start := pos }
    else
      return { c with pos }
  | .other => return { c with pos := ← add src c.pos 1 }

def scan (src : Source) (stop : Nat) (c : Cut) : ReadM Cut :=
  loop (isRunning stop) pos stop (step src stop) c

end Cut

/-- The options of the choice whose brace is at `brace`, each from where to where,
and the position after the choice. -/
def segments (src : Source) (brace first stop : Nat) : ReadM (List (Nat × Nat) × Nat) := do
  let c ← Cut.scan src stop ⟨first, 1, first, [], none⟩
  match c.next? with
  | some next => return (c.ended, next)
  | none =>
    report (.unterminatedChoice brace)
    return (c.ended ++ [(c.start, stop)], stop)

/-- The choice whose brace is at `brace`, or none if nothing follows the brace, and
the position after it; `option` reads an option. -/
def choice (src : Source) (option : Nat → Nat → ReadM Node) (brace stop : Nat) :
    ReadM (Option Node × Nat) := do
  let first ← add src brace 1
  if stop ≤ first then
    report (.strayOpen brace)
    return (none, first)
  let (parts, next) ← segments src brace first stop
  let options ← parts.mapM fun part =>
    -- an option starts behind the brace and ends no later than the choice
    if brace < part.1 ∧ part.2 ≤ next then
      option part.1 part.2
    else
      throw (.outside part.1 part.2)
  return (some (.choice options), next)

/-- An option, trimmed and then read by `read`. -/
def option (src : Source) (read : Nat → Nat → ReadM (List Node)) (start stop : Nat) :
    ReadM Node := do
  let raw ← slice src start stop
  let length := Text.byteLength raw
  let start ← add src start (← sub length (Text.byteLength (Text.trimStart raw)))
  let stop ← sub stop (← sub length (Text.byteLength (Text.trimEnd raw)))
  if stop ≤ start then
    return .option [] []
  return Node.optionOf (← read start stop)

/-! ## Sequences -/

/-- The scan of a sequence: the position, where the text at hand starts, the text
before that which belongs to it, and the nodes so far. -/
structure Walk where
  pos : Nat
  textStart : Nat
  pending : List Char
  nodes : List Node

namespace Walk

/-- One more byte, escape or choice. -/
def step (src : Source) (stop : Nat) (choice : Nat → ReadM (Option Node × Nat)) (w : Walk) :
    ReadM Walk := do
  match ← markAt src w.pos with
  | .escape => return { w with pos := ← skipEscape src w.pos stop }
  | .opening =>
    let pending := w.pending ++ (← slice src w.textStart w.pos)
    match ← choice w.pos with
    | (some node, next) => return ⟨next, next, [], w.nodes ++ Node.consText pending [] ++ [node]⟩
    | (none, next) => return ⟨next, next, pending ++ ['{'], w.nodes⟩
  | .closing =>
    report (.unmatchedClose w.pos)
    return { w with pos := ← add src w.pos 1 }
  | .bar | .other => return { w with pos := ← add src w.pos 1 }

def scan (src : Source) (stop : Nat) (choice : Nat → ReadM (Option Node × Nat)) (w : Walk) :
    ReadM Walk :=
  loop (fun w => w.pos < stop) pos stop (step src stop choice) w

end Walk

/-- The nodes of the part between two positions, inside `depth` choices. -/
def sequence (src : Source) (depth start stop : Nat) : ReadM (List Node) := do
  if src.maxDepth ≤ depth then
    if let some offset := Text.findBrace? (← slice src start stop) then
      report (.nestingTooDeep (← add src start offset) src.maxDepth)
    return Node.consText (← slice src start stop) []
  else
    let inside := fun a b => do
      let _ ← add src depth 1
      option src (sequence src (depth + 1)) a b
    let w ← Walk.scan src stop (choice src inside · stop) ⟨start, start, [], []⟩
    return w.nodes ++ Node.consText (w.pending ++ (← slice src w.textStart stop)) []
termination_by src.maxDepth - depth

/-- The whole text. -/
def read (src : Source) : Except Fault Reading := do
  let (nodes, diagnostics) ← (sequence src 0 0 (Text.byteLength src.text)).run []
  return { normal := src.text, root := .root nodes, diagnostics }

end Checked

end Spintax
