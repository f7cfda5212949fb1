import Spintax.Text.Blank

/-!
# Spintax — normal text

Spun text is one logical line. Before it is read it is trimmed and every line
break in it — a carriage return with the line feed after it, or either alone
— becomes one space. All positions that diagnostics report count the UTF-8
bytes of this normal text.
-/

namespace Spintax.Text

/-- Every line break becomes a single space. -/
def foldBreaks : List Char → List Char
  | '\r' :: '\n' :: rest => ' ' :: foldBreaks rest
  | c :: rest => (if c = '\r' ∨ c = '\n' then ' ' else c) :: foldBreaks rest
  | [] => []

/-- Trim first, then fold the line breaks that are left. -/
def normalize (s : List Char) : List Char :=
  foldBreaks (trim s)

/-- The number of bytes of the UTF-8 form. -/
def byteLength : List Char → Nat
  | [] => 0
  | c :: s => c.utf8Size + byteLength s

/-! ## Small laws -/

theorem foldBreaks_nil : foldBreaks [] = [] := rfl

theorem foldBreaks_cons_of_ne {c : Char} (h₁ : c ≠ '\r') (h₂ : c ≠ '\n') (s : List Char) :
    foldBreaks (c :: s) = c :: foldBreaks s := by
  simp [foldBreaks, h₁, h₂]

/-- A character that begins no pair is folded by itself. -/
theorem foldBreaks_cons {c : Char} {s : List Char} (h : c = '\r' → s.head? ≠ some '\n') :
    foldBreaks (c :: s) = (if c = '\r' ∨ c = '\n' then ' ' else c) :: foldBreaks s := by
  rw [foldBreaks]
  rintro t rfl rfl
  exact h rfl rfl

@[simp] theorem byteLength_nil : byteLength [] = 0 := rfl

@[simp] theorem byteLength_cons (c : Char) (s : List Char) :
    byteLength (c :: s) = c.utf8Size + byteLength s := rfl

/-- The length of a text is that of its parts together. -/
@[simp] theorem byteLength_append (s t : List Char) :
    byteLength (s ++ t) = byteLength s + byteLength t := by
  induction s with
  | nil => simp
  | cons c s ih => simp [ih, Nat.add_assoc]

end Spintax.Text
