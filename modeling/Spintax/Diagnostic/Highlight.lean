import Spintax.Diagnostic
import Spintax.Text.Blank
import Spintax.Text.Width

/-!
# Spintax — highlighted diagnostics

A diagnostic is shown as the line it is about with the offending character
marked, and its label below. The parts are coloured by ANSI escapes. Byte
positions become character positions here, then positions in a line, and those
become columns: a tab goes on to a multiple of four characters, other blanks
take one column and other characters their display width.

Normal text has no line feeds, but vertical tabs and the line separators of
Unicode stay in it and end lines here.
-/

namespace Spintax

/-- The colours of a highlighted line. -/
inductive Ink where
  | frame
  /-- The rule beside lines that hold no source. -/
  | rule
  | plain
  | mark
deriving DecidableEq

/-- The escape that selects a colour. -/
def Ink.code : Ink → String
  | .frame => "38;5;246"
  | .rule => "38;5;240"
  | .plain => "38;5;249"
  | .mark => "33"

def Ink.paint (ink : Ink) (s : String) : String :=
  "\x1b[" ++ ink.code ++ "m" ++ s ++ "\x1b[0m"

namespace Text

/-- The number of characters that start before a byte position. -/
def charsBefore : Nat → List Char → Nat
  | _, [] => 0
  | pos, c :: s => if pos = 0 then 0 else charsBefore (pos - c.utf8Size) s + 1

/-- The characters that end a line. -/
def endsLine (c : Char) : Bool :=
  ['\n', '\x0b', '\x0c', '\r', '\u0085', '\u2028', '\u2029'].contains c

/-- The lines of a text, each with what ends it. A carriage return and the line
feed after it end one line. -/
def lines : List Char → List (List Char)
  | [] => []
  | '\r' :: '\n' :: rest => ['\r', '\n'] :: lines rest
  | c :: rest =>
    if endsLine c then [c] :: lines rest
    else
      match lines rest with
      | [] => [[c]]
      | line :: others => (c :: line) :: others

/-- The line that holds a position and the position in that line, with the
number of the line if the first has the given one. What lies behind the text
is held by the last line. -/
def lineAt (number position : Nat) : List (List Char) → Nat × Nat × List Char
  | [] => (number, position, [])
  | [line] => (number, position, line)
  | line :: others =>
    if position < line.length then (number, position, line)
    else lineAt (number + 1) (position - line.length) others

/-- The number of columns of the `i`th character of a line. -/
def columns (i : Nat) (c : Char) : Nat :=
  if c = '\t' then 4 - i % 4
  else if isBlank c then 1
  else displayWidth c

/-- The number of columns of the character at a position, one where the line
has ended. -/
def columnsAt (s : List Char) (i : Nat) : Nat :=
  match s[i]? with
  | some c => columns i c
  | none => 1

/-- The number of columns in front of a position. -/
def columnsBefore (s : List Char) : Nat → Nat
  | 0 => 0
  | i + 1 => columnsBefore s i + columnsAt s i

/-- So many copies of a text. -/
def repeated (n : Nat) (s : String) : String :=
  String.join (List.replicate n s)

/-- A row of so many signs, all alike but the first. -/
def row (first other : String) : Nat → String
  | 0 => ""
  | n + 1 => first ++ repeated n other

end Text

namespace Diagnostic

/-- The range of characters that a diagnostic marks, from its first up to the
one after its last. -/
def span (source : List Char) (d : Diagnostic) : Nat × Nat :=
  let start := Text.charsBefore d.pos source
  (start, max (Text.charsBefore (d.pos + 1) source) (start + 1))

/-- The characters of a line, the one at position `marked` in its colour and
blanks as spaces. -/
def paintLine (marked : Nat) (line : List Char) : String :=
  String.join <| line.zipIdx.map fun (c, i) =>
    let ink := if i = marked then Ink.mark else Ink.plain
    if Text.isBlank c then Text.repeated (Text.columns i c) (ink.paint " ")
    else ink.paint (String.ofList [c])

/-- The beginning of a line that holds no source, where line numbers have so
many digits. -/
def ruleMargin (digits : Nat) : String :=
  " " ++ Ink.rule.paint (Text.repeated (digits + 1) " " ++ "│") ++ " "

/-- The line of a number, marked at a position, with the label below it. -/
def markedLines (number : String) (line : List Char) (start : Nat) (label : String) :
    List String :=
  -- blanks at the end are not shown and take one column each
  let line := Text.trimEnd line
  let margin := ruleMargin number.length
  let width := Text.columnsAt line start
  let reach := Text.columnsAt line (start + 1) + Text.columnsAt line (start + 2)
  let indent := Text.repeated (Text.columnsBefore line start) " "
  let dash := Ink.mark.paint "─"
  -- a character without width has no room for the joint of the arrow
  [" " ++ Ink.frame.paint (number ++ " │") ++ " " ++ paintLine start line,
   margin ++ indent ++ Text.row (Ink.mark.paint "┬") dash width ++ Text.repeated reach " ",
   margin ++ indent ++ Text.row (Ink.mark.paint "╰") dash width ++
     Text.repeated reach dash ++ " " ++ label]

/-- The lines that show a diagnostic in the source of the named file. Of an
empty source nothing can be shown. -/
def highlightLines (file : String) (source : List Char) (d : Diagnostic) : List String :=
  let title := Ink.mark.paint "Warning:" ++ " " ++ d.message
  if source.isEmpty then [title]
  else
    let (number, start, line) := Text.lineAt 1 (d.span source).1 (Text.lines source)
    let number := Text.decimal number
    let margin := Text.repeated (number.length + 2) " "
    -- a position behind the source has no character to mark
    let shown :=
      if start < line.length then markedLines number line start d.label
      else [ruleMargin number.length]
    [title,
     margin ++ Ink.frame.paint "╭" ++ Ink.frame.paint "─" ++ Ink.frame.paint "[" ++ file ++ ":" ++
       number ++ ":" ++ Text.decimal (start + 1) ++ Ink.frame.paint "]",
     margin ++ Ink.frame.paint "│"] ++ shown ++
      [Ink.frame.paint (Text.repeated (number.length + 2) "─" ++ "╯")]

/-- A diagnostic with the line it is about. -/
def highlight (file : String) (source : List Char) (d : Diagnostic) : String :=
  String.join ((highlightLines file source d).map (· ++ "\n"))

/-- Diagnostics one after the other, with an empty line between two. -/
def highlightAll (file : String) (source : List Char) (ds : List Diagnostic) : String :=
  "\n".intercalate (ds.map (highlight file source))

end Diagnostic

end Spintax
