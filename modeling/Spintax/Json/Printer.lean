import Spintax.Json
import Spintax.Text.Numeral

/-!
# Spintax — writing JSON text

A value is written on one line, without spaces, or on several with two spaces
for each level; empty lists and objects stay on one line either way. Only the
quote, the backslash and the control characters below U+0020 are escaped.
-/

namespace Spintax.Json

/-- A hexadecimal digit in lower case. -/
def hexDigit (n : Nat) : Char :=
  if n < 10 then Char.ofNat ('0'.toNat + n) else Char.ofNat ('a'.toNat + (n - 10))

/-- A character as it stands in a string. -/
def escape (c : Char) : List Char :=
  if c = '"' then ['\\', '"']
  else if c = '\\' then ['\\', '\\']
  else if c = '\x08' then ['\\', 'b']
  else if c = '\x0c' then ['\\', 'f']
  else if c = '\n' then ['\\', 'n']
  else if c = '\r' then ['\\', 'r']
  else if c = '\t' then ['\\', 't']
  else if c.toNat < 0x20 then
    ['\\', 'u', '0', '0', hexDigit (c.toNat / 16), hexDigit (c.toNat % 16)]
  else [c]

def quote (s : String) : String :=
  "\"" ++ String.ofList (s.toList.flatMap escape) ++ "\""

/-- The text of a value that is neither a list nor an object. An unreadable
value is never written; it would read as `null`. -/
def scalarText : Json → String
  | .bool true => "true"
  | .bool false => "false"
  | .natural n => Text.decimal n
  | .number text => text
  | .string s => quote s
  | _ => "null"

def openBrace : String := "\x7b"

def closeBrace : String := "\x7d"

mutual

/-- A value on one line. -/
def compact : Json → String
  | .array items => "[" ++ ",".intercalate (compactAll items) ++ "]"
  | .object fields => openBrace ++ ",".intercalate (compactFields fields) ++ closeBrace
  | v => scalarText v

def compactAll : List Json → List String
  | [] => []
  | v :: vs => compact v :: compactAll vs

def compactFields : List (String × Json) → List String
  | [] => []
  | (key, v) :: fs => (quote key ++ ":" ++ compact v) :: compactFields fs

end

/-- The beginning of a line at a level. -/
def newLine (level : Nat) : String :=
  "\n" ++ String.ofList (List.replicate (2 * level) ' ')

/-- Parts between brackets, each on a line of its own, or nothing between them. -/
def block (level : Nat) (left right : String) (parts : List String) : String :=
  if parts.isEmpty then left ++ right
  else
    left ++ newLine (level + 1) ++ ("," ++ newLine (level + 1)).intercalate parts ++
      newLine level ++ right

mutual

/-- A value on several lines, where the line it starts on is at a level. -/
def prettyAt (level : Nat) : Json → String
  | .array items => block level "[" "]" (prettyAll (level + 1) items)
  | .object fields => block level openBrace closeBrace (prettyFields (level + 1) fields)
  | v => scalarText v

def prettyAll (level : Nat) : List Json → List String
  | [] => []
  | v :: vs => prettyAt level v :: prettyAll level vs

def prettyFields (level : Nat) : List (String × Json) → List String
  | [] => []
  | (key, v) :: fs => (quote key ++ ": " ++ prettyAt level v) :: prettyFields level fs

end

/-- A value on several lines. -/
def pretty (v : Json) : String :=
  prettyAt 0 v

end Spintax.Json
