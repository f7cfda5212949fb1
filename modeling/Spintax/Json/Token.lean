import Spintax.Json

/-!
# Spintax — the tokens of JSON text

JSON text is cut into brackets, separators, strings and the remaining scalars.
White space between tokens is space, tab, line feed and carriage return.

Strings are read in two steps: first into *pieces*, characters and the
numbers of `\u` escapes, then the escapes are put together in pairs of
surrogates. Numbers follow the strict grammar: no leading zeros, digits on
both sides of the point, digits in the exponent.
-/

namespace Spintax.Json

/-- A token of JSON text. -/
inductive Token where
  | openArray
  | closeArray
  | openObject
  | closeObject
  | comma
  | colon
  /-- A string, unless it denotes nothing. -/
  | string (s? : Option String)
  /-- A number or one of the three words. -/
  | scalar (v : Json)

namespace Token

/-! ## Strings -/

/-- A part of a string: a character, or the number of a `\u` escape. -/
inductive Piece where
  | char (c : Char)
  | unit (n : Nat)

def hexDigit? (c : Char) : Option Nat :=
  if '0' ≤ c ∧ c ≤ '9' then some (c.toNat - '0'.toNat)
  else if 'a' ≤ c ∧ c ≤ 'f' then some (c.toNat - 'a'.toNat + 10)
  else if 'A' ≤ c ∧ c ≤ 'F' then some (c.toNat - 'A'.toNat + 10)
  else none

/-- The value of four hexadecimal digits. -/
def hexWord? (a b c d : Char) : Option Nat :=
  match hexDigit? a, hexDigit? b, hexDigit? c, hexDigit? d with
  | some a, some b, some c, some d => some (((a * 16 + b) * 16 + c) * 16 + d)
  | _, _, _, _ => none

/-- The character that a backslash and a letter stand for. -/
def escaped? (c : Char) : Option Char :=
  match c with
  | '"' => some '"'
  | '\\' => some '\\'
  | '/' => some '/'
  | 'b' => some '\x08'
  | 'f' => some '\x0c'
  | 'n' => some '\n'
  | 'r' => some '\r'
  | 't' => some '\t'
  | _ => none

/-- The pieces up to the closing quote, and the text after it. Control
characters must be escaped. -/
def pieces? : List Char → Option (List Piece × List Char)
  | [] => none
  | '"' :: rest => some ([], rest)
  | '\\' :: 'u' :: a :: b :: c :: d :: rest =>
    match hexWord? a b c d, pieces? rest with
    | some n, some (ps, after) => some (.unit n :: ps, after)
    | _, _ => none
  | '\\' :: e :: rest =>
    match escaped? e, pieces? rest with
    | some c, some (ps, after) => some (.char c :: ps, after)
    | _, _ => none
  | c :: rest =>
    if c.toNat < 0x20 then none
    else match pieces? rest with
      | some (ps, after) => some (.char c :: ps, after)
      | none => none

/-- The first half of a surrogate pair. -/
def isHighSurrogate (n : Nat) : Bool :=
  0xD800 ≤ n && n < 0xDC00

/-- The second half of a surrogate pair. -/
def isLowSurrogate (n : Nat) : Bool :=
  0xDC00 ≤ n && n < 0xE000

/-- The characters of a list of pieces, unless half of a surrogate pair is
among them. -/
def joinPieces? : List Piece → Option (List Char)
  | [] => some []
  | .char c :: ps => (joinPieces? ps).map (c :: ·)
  | .unit n :: ps =>
    if isHighSurrogate n then
      -- only an escape that follows at once can be the second half
      match ps with
      | .unit m :: ps =>
        if isLowSurrogate m then
          let c := Char.ofNat (0x10000 + (n - 0xD800) * 0x400 + (m - 0xDC00))
          (joinPieces? ps).map (c :: ·)
        else none
      | _ => none
    else if isLowSurrogate n then none
    else (joinPieces? ps).map (Char.ofNat n :: ·)

/-! ## Numbers -/

/-- The characters that numbers are made of. -/
def isNumberChar (c : Char) : Bool :=
  c.isDigit || c == '-' || c == '+' || c == '.' || c == 'e' || c == 'E'

/-- The value of `n` with further digits behind it, as long as it fits a word,
and the number of digits that are left. -/
def absorb (n : Nat) : List Char → Nat × Nat
  | [] => (n, 0)
  | d :: ds =>
    let next := n * 10 + (d.toNat - '0'.toNat)
    if next < UInt64.size then absorb next ds else (n, ds.length + 1)

/-- A number as a word times a power of ten. Whole digits that do not fit the
word count as zeros; those of the fraction are dropped. -/
def scaled (whole part : List Char) (exponent : Int) : Nat × Int :=
  let (n, zeros) := absorb 0 whole
  let (n, dropped) := absorb n part
  (n, exponent + zeros - (part.length - dropped : Nat))

/-- The double that is nearest to a number, if there is no limit to exponents;
halfway between two it is the even one. -/
def nearestDouble (n : Nat) : Nat :=
  let unit := 1 <<< (n.log2 + 1 - 53)
  let below := n / unit
  let rest := 2 * (n % unit)
  let steps := if rest < unit || (rest == unit && below % 2 == 0) then below else below + 1
  steps * unit

/-- Whether `n · 10 ^ exponent` is a finite double when both factors are rounded
to doubles first: the product has to stay below 2¹⁰²⁴ less half a unit in the
last place of the largest double. -/
def fitsDouble (n : Nat) (exponent : Int) : Bool :=
  if n = 0 || exponent < 0 then true
  -- no power of ten above the 308th is a double
  else if exponent > 308 then false
  else nearestDouble n * nearestDouble (Nat.pow 10 exponent.toNat) < (1 <<< 1024) - (1 <<< 970)

/-- The fraction of a number, if it has one, and the text after it. -/
def fraction? : List Char → Option (List Char × List Char)
  | '.' :: rest =>
    let ds := rest.takeWhile Char.isDigit
    if ds.isEmpty then none else some (ds, rest.dropWhile Char.isDigit)
  | rest => some ([], rest)

/-- The digits of an exponent, which end the number. -/
def exponentDigits? (ds : List Char) : Option Nat :=
  if ds.isEmpty || !ds.all Char.isDigit then none else some (Nat.ofDigitChars 10 ds 0)

/-- The exponent of a number, zero if it has none. -/
def exponent? : List Char → Option Int
  | [] => some 0
  | e :: rest =>
    if e = 'e' ∨ e = 'E' then
      match rest with
      | '-' :: ds => (exponentDigits? ds).map fun n => -(n : Int)
      | '+' :: ds => (exponentDigits? ds).map fun n => (n : Int)
      | ds => (exponentDigits? ds).map fun n => (n : Int)
    else none

/-- The value of a number as it is written, if it is written correctly. -/
def number? (text : List Char) : Option Json :=
  let body := if text.head? = some '-' then text.tail else text
  let whole := body.takeWhile Char.isDigit
  if whole.isEmpty || (whole.head? == some '0' && whole.length != 1) then none
  else
    match fraction? (body.dropWhile Char.isDigit) with
    | none => none
    | some (part, rest) =>
      match exponent? rest with
      | none => none
      | some e =>
        let (n, exponent) := scaled whole part e
        if !fitsDouble n exponent then some .unreadable
        else if whole = text then some (.natural (Nat.ofDigitChars 10 whole 0))
        else some (.number (String.ofList text))

/-! ## Tokens -/

/-- The value of a word of letters. -/
def word? (letters : List Char) : Option Json :=
  if letters = ['n', 'u', 'l', 'l'] then some .null
  else if letters = ['t', 'r', 'u', 'e'] then some (.bool true)
  else if letters = ['f', 'a', 'l', 's', 'e'] then some (.bool false)
  else none

/-- White space between tokens. -/
def isSpace (c : Char) : Bool :=
  c == ' ' || c == '\t' || c == '\n' || c == '\r'

/-- The token that begins with a character, and the text after it. -/
def next? (c : Char) (rest : List Char) : Option (Token × List Char) :=
  match c with
  | '[' => some (.openArray, rest)
  | ']' => some (.closeArray, rest)
  | '\x7b' => some (.openObject, rest)
  | '\x7d' => some (.closeObject, rest)
  | ',' => some (.comma, rest)
  | ':' => some (.colon, rest)
  | '"' =>
    (pieces? rest).map fun (ps, after) => (.string ((joinPieces? ps).map String.ofList), after)
  | c =>
    if isNumberChar c then
      (number? (c :: rest.takeWhile isNumberChar)).map fun v =>
        (.scalar v, rest.dropWhile isNumberChar)
    else
      (word? (c :: rest.takeWhile Char.isAlpha)).map fun v =>
        (.scalar v, rest.dropWhile Char.isAlpha)

/-- A string takes up at least its closing quote. -/
theorem length_pieces? {s : List Char} {ps : List Piece} {after : List Char}
    (h : pieces? s = some (ps, after)) : after.length < s.length := by
  fun_induction pieces? s generalizing ps with
  | case2 => simp_all
  | case3 _ _ _ _ rest _ ps' after' hp _ ih =>
    obtain ⟨-, rfl⟩ := Prod.mk.inj (Option.some.inj h)
    have := ih hp
    simp only [List.length_cons]
    omega
  | case5 _ rest _ _ ps' after' hp _ ih =>
    obtain ⟨-, rfl⟩ := Prod.mk.inj (Option.some.inj h)
    have := ih hp
    simp only [List.length_cons]
    omega
  | case8 _ rest _ _ _ _ ps' after' hp ih =>
    obtain ⟨-, rfl⟩ := Prod.mk.inj (Option.some.inj h)
    have := ih hp
    simp only [List.length_cons]
    omega
  | _ => simp_all

/-- What is left after a token is no longer than before, so the tokens come to an end. -/
theorem length_next? {c : Char} {rest after : List Char} {t : Token}
    (h : next? c rest = some (t, after)) : after.length ≤ rest.length := by
  unfold next? at h
  split at h
  case h_7 =>
    obtain ⟨⟨ps, s⟩, hp, he⟩ := Option.map_eq_some_iff.mp h
    obtain ⟨-, rfl⟩ := Prod.mk.inj he
    exact Nat.le_of_lt (length_pieces? hp)
  case h_8 =>
    split at h <;>
      · obtain ⟨v, -, he⟩ := Option.map_eq_some_iff.mp h
        obtain ⟨-, rfl⟩ := Prod.mk.inj he
        exact (List.dropWhile_sublist _).length_le
  all_goals
    simp only [Option.some.injEq, Prod.mk.injEq] at h
    exact Nat.le_of_eq (congrArg List.length h.2.symm)

/-- The tokens of a text, if it is made of tokens. -/
def ofText? : List Char → Option (List Token)
  | [] => some []
  | c :: rest =>
    if isSpace c then ofText? rest
    else
      match _h : next? c rest with
      | some (t, after) => (ofText? after).map (t :: ·)
      | none => none
termination_by s => s.length
decreasing_by
  · exact Nat.lt_succ_self _
  · exact Nat.lt_succ_of_le (length_next? _h)

end Token

end Spintax.Json
