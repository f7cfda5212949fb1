import Spintax.Text.Normal

/-!
# Spintax — lexemes

Spun text is cut from left to right into *tokens*: a backslash takes the
character after it along (a *pair*), braces and bars are structure, and any
other character stands for itself. A token and the byte position at which it
starts make a *lexeme*. Nothing is skipped, so the spellings of the tokens
put together are the text (`spelling_ofText`).

Trimming a run of lexemes is trimming its spelling. It may cut a final pair in
two: a backslash before a trailing blank loses the blank and stays behind
alone.
-/

namespace Spintax

/-- The smallest units of spun text. -/
inductive Token where
  /-- A character that stands for itself. -/
  | plain (c : Char)
  /-- A backslash and the character after it, kept as written. -/
  | pair (c : Char)
  /-- A backslash with nothing after it. -/
  | backslash
  | opening
  | closing
  | bar
deriving DecidableEq

namespace Token

/-- The token of a character that is no backslash. -/
def ofChar (c : Char) : Token :=
  if c = '{' then .opening
  else if c = '}' then .closing
  else if c = '|' then .bar
  else .plain c

/-- The characters a token was read from. -/
def spelling : Token → List Char
  | .plain c => [c]
  | .pair c => ['\\', c]
  | .backslash => ['\\']
  | .opening => ['{']
  | .closing => ['}']
  | .bar => ['|']

/-- The tokens of a text, from left to right. -/
def ofText : List Char → List Token
  | [] => []
  | ['\\'] => [.backslash]
  | '\\' :: c :: rest => .pair c :: ofText rest
  | c :: rest => ofChar c :: ofText rest

/-- A plain blank. -/
def isBlank : Token → Bool
  | .plain c => Text.isBlank c
  | _ => false

/-- What trimming at the end leaves of a token: nothing of a blank, the
backslash of a pair with a blank, and any other token whole. -/
def withoutTrailingBlank : Token → Option Token
  | .plain c => if Text.isBlank c then none else some (.plain c)
  | .pair c => if Text.isBlank c then some .backslash else some (.pair c)
  | t => some t

end Token

/-- A token and the byte position at which it starts. -/
structure Lexeme where
  token : Token
  pos : Nat
deriving DecidableEq

namespace Lexeme

/-- The characters a lexeme was read from. -/
def spelling (l : Lexeme) : List Char :=
  l.token.spelling

/-- The text that a run of lexemes was read from. -/
def spellAll (ls : List Lexeme) : List Char :=
  ls.flatMap spelling

/-- Tokens laid out one after the other from a byte position on. -/
def place (pos : Nat) : List Token → List Lexeme
  | [] => []
  | t :: ts => ⟨t, pos⟩ :: place (pos + Text.byteLength t.spelling) ts

def ofText (s : List Char) : List Lexeme :=
  place 0 (Token.ofText s)

def isBlank (l : Lexeme) : Bool :=
  l.token.isBlank

/-- What trimming at the end leaves of a lexeme. -/
def withoutTrailingBlank (l : Lexeme) : Option Lexeme :=
  l.token.withoutTrailingBlank.map fun t => ⟨t, l.pos⟩

/-- A run without its trailing blanks. -/
def trimEnd : List Lexeme → List Lexeme
  | [] => []
  | l :: ls =>
    match trimEnd ls with
    -- nothing is left behind this lexeme, so it is the last one
    | [] => l.withoutTrailingBlank.toList
    | kept => l :: kept

/-- A run without the blanks at either end. -/
def trim (ls : List Lexeme) : List Lexeme :=
  trimEnd (ls.dropWhile isBlank)

/-- The position of the first opening brace as it is written, whether or not a
backslash stands before it. -/
def firstBrace? : List Lexeme → Option Nat
  | [] => none
  | ⟨.opening, pos⟩ :: _ => some pos
  -- the brace of a pair stands one byte after its backslash
  | ⟨.pair '{', pos⟩ :: _ => some (pos + 1)
  | _ :: ls => firstBrace? ls

end Lexeme

/-! ## Small laws -/

namespace Token

/-- A character outside a pair is spelled as it stands. -/
theorem spelling_ofChar (c : Char) : (ofChar c).spelling = [c] := by
  unfold ofChar
  split
  · simp_all [spelling]
  split
  · simp_all [spelling]
  split
  · simp_all [spelling]
  · rfl

/-- The tokens of a text spell the text. -/
theorem spelling_ofText (s : List Char) : (ofText s).flatMap spelling = s := by
  fun_induction ofText s with
  | case1 => rfl
  | case2 => rfl
  | case3 c rest ih => simp [spelling, ih]
  | case4 c rest _ _ ih => simp [spelling_ofChar, ih]

end Token

namespace Lexeme

/-- Giving tokens their places does not change the tokens. -/
theorem map_token_place (pos : Nat) (ts : List Token) : (place pos ts).map token = ts := by
  induction ts generalizing pos with
  | nil => rfl
  | cons t ts ih => simp [place, ih]

/-- Tokens that follow others have their places behind what those spell. -/
theorem place_append (pos : Nat) (ts us : List Token) :
    place pos (ts ++ us) =
      place pos ts ++ place (pos + Text.byteLength (ts.flatMap Token.spelling)) us := by
  induction ts generalizing pos with
  | nil => simp [place]
  | cons t ts ih => simp [place, ih, Nat.add_assoc]

/-- The lexemes of a text spell the text. -/
theorem spellAll_ofText (s : List Char) : spellAll (ofText s) = s := by
  have h : spellAll (ofText s) = ((ofText s).map token).flatMap Token.spelling := by
    rw [List.flatMap_map]
    rfl
  rw [h, ofText, map_token_place, Token.spelling_ofText]

theorem spellAll_cons (l : Lexeme) (ls : List Lexeme) :
    spellAll (l :: ls) = l.spelling ++ spellAll ls := by
  simp [spellAll]

theorem spellAll_append (xs ys : List Lexeme) :
    spellAll (xs ++ ys) = spellAll xs ++ spellAll ys := by
  simp [spellAll]

/-- Every lexeme starts after the bytes of those before it. -/
theorem pos_of_place {pos : Nat} {ts : List Token} {before after : List Lexeme} {l : Lexeme}
    (h : place pos ts = before ++ l :: after) :
    l.pos = pos + Text.byteLength (spellAll before) := by
  induction ts generalizing pos before with
  | nil => simp [place] at h
  | cons t ts ih =>
    cases before with
    | nil =>
      obtain ⟨rfl, -⟩ := List.cons.inj h
      simp [spellAll]
    | cons b before =>
      obtain ⟨rfl, hrest⟩ := List.cons.inj h
      rw [ih hrest, spellAll_cons, Text.byteLength_append, spelling, Nat.add_assoc]

/-- Every lexeme takes up some of the text. -/
theorem spelling_ne_nil (l : Lexeme) : l.spelling ≠ [] := by
  unfold spelling Token.spelling
  split <;> simp

/-- Nothing is spelled only where there is no lexeme. -/
theorem spellAll_eq_nil {ls : List Lexeme} : spellAll ls = [] ↔ ls = [] := by
  cases ls with
  | nil => simp [spellAll]
  | cons l ls => simp [spellAll_cons, spelling_ne_nil]

/-- What trimming leaves of the last lexeme is its spelling, trimmed. -/
theorem spellAll_withoutTrailingBlank (l : Lexeme) :
    spellAll l.withoutTrailingBlank.toList = Text.trimEnd l.spelling := by
  obtain ⟨t, pos⟩ := l
  cases t <;> simp only [withoutTrailingBlank, Token.withoutTrailingBlank]
  case plain c =>
    cases h : Text.isBlank c <;>
      simp [h, spellAll, spelling, Token.spelling, Text.trimEnd]
  case pair c =>
    have hb : Text.isBlank '\\' = false := by decide
    cases h : Text.isBlank c <;>
      simp [h, hb, spellAll, spelling, Token.spelling, Text.trimEnd]
  all_goals rfl

/-- Trimming the end of the lexemes trims the end of what they spell. -/
theorem spellAll_trimEnd (ls : List Lexeme) :
    spellAll (trimEnd ls) = Text.trimEnd (spellAll ls) := by
  induction ls with
  | nil => rfl
  | cons l ls ih =>
    rw [spellAll_cons, Text.trimEnd_append, ← ih]
    simp only [spellAll_eq_nil]
    cases h : trimEnd ls with
    | nil => simp [trimEnd, h, spellAll_withoutTrailingBlank, Text.trimEnd]
    | cons m ms => simp [trimEnd, h, spellAll_cons]

/-- Leaving out the first blank lexemes trims the start of what is spelled. -/
theorem spellAll_dropWhile_isBlank (ls : List Lexeme) :
    spellAll (ls.dropWhile isBlank) = Text.trimStart (spellAll ls) := by
  induction ls with
  | nil => rfl
  | cons l ls ih =>
    obtain ⟨t, pos⟩ := l
    cases t
    case plain c =>
      cases h : Text.isBlank c <;>
        simp_all [isBlank, Token.isBlank, spellAll_cons, spelling, Token.spelling, Text.trimStart]
    all_goals rfl

/-- Trimming a run is trimming its spelling. -/
theorem spellAll_trim (ls : List Lexeme) : spellAll (trim ls) = Text.trim (spellAll ls) := by
  rw [trim, spellAll_trimEnd, spellAll_dropWhile_isBlank, Text.trim]

end Lexeme

end Spintax
