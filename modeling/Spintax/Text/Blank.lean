/-!
# Spintax — blank characters

A character is blank when it has the Unicode property `White_Space`:
twenty-five code points in ten ranges. The zero-width space, the byte order
mark and the information separators below U+0020 are not among them.

* `isBlank` — the class, read off `blankRanges`;
* `trimStart`, `trimEnd`, `trim` — a text without the blanks at its ends;
* `allBlank` — nothing but blanks.
-/

namespace Spintax.Text

/-- The code points of `White_Space`, as closed ranges in ascending order. -/
def blankRanges : List (Nat × Nat) :=
  [(0x0009, 0x000D), (0x0020, 0x0020), (0x0085, 0x0085), (0x00A0, 0x00A0),
   (0x1680, 0x1680), (0x2000, 0x200A), (0x2028, 0x2029), (0x202F, 0x202F),
   (0x205F, 0x205F), (0x3000, 0x3000)]

/-- Membership in `White_Space`. -/
def isBlank (c : Char) : Bool :=
  blankRanges.any fun (lo, hi) => lo ≤ c.toNat && c.toNat ≤ hi

def trimStart (s : List Char) : List Char :=
  s.dropWhile isBlank

def trimEnd (s : List Char) : List Char :=
  (s.reverse.dropWhile isBlank).reverse

def trim (s : List Char) : List Char :=
  trimEnd (trimStart s)

/-- Nothing but blanks, the empty text included. -/
def allBlank (s : List Char) : Bool :=
  s.all isBlank

/-! ## Small laws -/

/-- The ranges hold twenty-five code points. -/
example : (blankRanges.map fun (lo, hi) => hi + 1 - lo).sum = 25 := rfl

/-- Trimming goes on into a text only if nothing of what follows it is left. -/
theorem trimEnd_append (s t : List Char) :
    trimEnd (s ++ t) = if trimEnd t = [] then trimEnd s else s ++ trimEnd t := by
  simp only [trimEnd, List.reverse_append, List.dropWhile_append, List.isEmpty_iff,
    List.reverse_eq_nil_iff]
  split <;> simp

theorem trimStart_cons_of_isBlank {c : Char} (h : isBlank c = true) (s : List Char) :
    trimStart (c :: s) = trimStart s := by
  rw [trimStart, List.dropWhile_cons_of_pos h, trimStart]

theorem trimStart_cons_of_not_isBlank {c : Char} (h : isBlank c = false) (s : List Char) :
    trimStart (c :: s) = c :: s := by
  rw [trimStart, List.dropWhile_cons_of_neg (by simp [h])]

/-- The first character is kept if anything behind it is, or if it is no blank itself. -/
theorem trimEnd_cons (c : Char) (s : List Char) :
    trimEnd (c :: s) = if trimEnd s = [] then trimEnd [c] else c :: trimEnd s := by
  rw [← List.singleton_append, trimEnd_append]
  rfl

theorem trimEnd_cons_of_ne_nil {s : List Char} (h : trimEnd s ≠ []) (c : Char) :
    trimEnd (c :: s) = c :: trimEnd s := by
  rw [trimEnd_cons, if_neg h]

/-- Before blanks alone, only a character that is no blank is kept. -/
theorem trimEnd_cons_of_eq_nil {s : List Char} (h : trimEnd s = []) (c : Char) :
    trimEnd (c :: s) = if isBlank c then [] else [c] := by
  rw [trimEnd_cons, if_pos h, trimEnd]
  cases hc : isBlank c <;> simp [hc]

end Spintax.Text
