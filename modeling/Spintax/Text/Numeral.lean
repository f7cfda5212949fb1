/-!
# Spintax — unsigned numerals

A numeral is one or more ASCII digits, optionally after a plus sign, whose
value is below 2⁶⁴; leading zeros are allowed. Written numerals have neither
sign nor leading zeros.

* `toWord?` — a number as a 64-bit word, if it is below 2⁶⁴;
* `numeral?` — reads a numeral;
* `digits`, `decimal` — write a number;
* `numeral?_digits` — what is written reads back.
-/

namespace Spintax.Text

/-- A number as a word, unless it is too large for one. -/
def toWord? (n : Nat) : Option UInt64 :=
  if n < UInt64.size then some n.toUInt64 else none

/-- The decimal digits of a number, without leading zeros. -/
def digits (n : Nat) : List Char :=
  Nat.toDigits 10 n

/-- The decimal form of a number, as messages show it. -/
def decimal (n : Nat) : String :=
  String.ofList (digits n)

/-- The value of a nonempty run of ASCII digits. -/
def digitsValue? (s : List Char) : Option Nat :=
  if s ≠ [] ∧ s.all Char.isDigit then some (Nat.ofDigitChars 10 s 0) else none

/-- The text after an optional plus sign. -/
def dropPlus : List Char → List Char
  | '+' :: rest => rest
  | s => s

/-- A numeral: digits after an optional plus sign, with a value below 2⁶⁴. -/
def numeral? (s : List Char) : Option UInt64 :=
  (digitsValue? (dropPlus s)).bind toWord?

/-! ## Small laws -/

/-- A word is given exactly for the number that it stands for. -/
theorem toWord?_eq_some_iff {n : Nat} {k : UInt64} : toWord? n = some k ↔ k.toNat = n := by
  unfold toWord?
  constructor
  · intro h
    split at h
    · next hlt =>
      obtain rfl := Option.some.inj h
      -- below 2⁶⁴ nothing wraps around
      exact UInt64.toNat_ofNat_of_lt' hlt
    · exact absurd h nofun
  · rintro rfl
    rw [if_pos k.toNat_lt_size]
    exact congrArg some UInt64.ofNat_toNat

/-- A word taken as a number is that word again. -/
@[simp] theorem toWord?_toNat (k : UInt64) : toWord? k.toNat = some k :=
  toWord?_eq_some_iff.mpr rfl

theorem digits_ne_nil (n : Nat) : digits n ≠ [] := Nat.toDigits_ne_nil

theorem isDigit_of_mem_digits {n : Nat} {c : Char} (h : c ∈ digits n) : c.isDigit = true :=
  Nat.isDigit_of_mem_toDigits (by decide) (by decide) h

/-- The digits of a number have its value. -/
theorem digitsValue?_digits (n : Nat) : digitsValue? (digits n) = some n := by
  have hall : (digits n).all Char.isDigit = true :=
    List.all_eq_true.mpr fun _ h => isDigit_of_mem_digits h
  simp only [digitsValue?, ne_eq, digits_ne_nil, not_false_eq_true, hall, and_self, if_true]
  rw [digits, Nat.ofDigitChars_toDigits (by decide) (by decide)]

/-- A number is written without a sign. -/
theorem dropPlus_digits (n : Nat) : dropPlus (digits n) = digits n := by
  unfold dropPlus
  split
  · next rest h =>
    have : ('+').isDigit = true := isDigit_of_mem_digits (n := n) (h ▸ List.mem_cons_self)
    exact absurd this (by decide)
  · rfl

/-- A written number reads back. -/
theorem numeral?_digits (n : UInt64) : numeral? (digits n.toNat) = some n := by
  simp [numeral?, dropPlus_digits, digitsValue?_digits]

end Spintax.Text
