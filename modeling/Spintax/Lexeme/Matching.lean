import Spintax.Diagnostic
import Spintax.Lexeme

/-!
# Spintax — matching braces

Braces are matched as brackets are: going from left to right, a closing brace
closes the innermost one that is still open. `Matching` says what is left over.
This is a view of its own on what reading has to repair: it knows nothing of
options, of trimming or of depth.

* `Matching.ofLexemes` — the braces of a run without a partner;
* `Matching.diagnostics` — what reading says about them;
* `enclosing` — how many braces are open at a position.
-/

namespace Spintax

/-- The braces that have no partner so far. -/
structure Matching where
  /-- The positions of the open ones, innermost first. -/
  opened : List Nat
  /-- The positions of closing ones that close nothing, last first. -/
  loose : List Nat
deriving DecidableEq

namespace Matching

/-- No brace without a partner. -/
def balanced : Matching := ⟨[], []⟩

/-- One more lexeme. -/
def step (b : Matching) (l : Lexeme) : Matching :=
  match l.token, b.opened with
  | .opening, opened => { b with opened := l.pos :: opened }
  | .closing, _ :: opened => { b with opened }
  | .closing, [] => { b with loose := l.pos :: b.loose }
  | _, _ => b

/-- The braces of a run that have no partner in it. -/
def ofLexemes (ls : List Lexeme) : Matching :=
  ls.foldl step balanced

/-- What is wrong with an open brace in a text of so many bytes: at the very
end it is stray, else its choice is unterminated. -/
def openReport (length pos : Nat) : Diagnostic :=
  if pos + 1 = length then .strayOpen pos else .unterminatedChoice pos

/-- The braces without a partner in a text of so many bytes, from left to
right. A closing brace is only left over when none is open, so all of those
come before the ones that stay open. -/
def diagnostics (length : Nat) (b : Matching) : List Diagnostic :=
  b.loose.reverse.map .unmatchedClose ++ b.opened.reverse.map (openReport length)

/-- The number of braces that are open in front of a position. -/
def enclosing (ls : List Lexeme) (pos : Nat) : Nat :=
  (ofLexemes (ls.takeWhile fun l => l.pos < pos)).opened.length

/-! ## Small laws -/

theorem ofLexemes_nil : ofLexemes [] = balanced := rfl

end Matching

end Spintax
