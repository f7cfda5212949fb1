import Spintax.Sampling

/-!
# Spintax — picks from random draws

Picks that use up the 64-bit draws of a source, with the same chance for each
alternative. A draw `v` chooses among `n` alternatives by the high word of
`v * n`; to give each the same number of draws, those whose low word lies past
a zone are thrown away and the source is asked again.

* `DrawSource` — a stream of draws;
* `accept?` — the alternative that a draw chooses, if it is not thrown away;
* `DrawSource.picker` — the picks of a stream;
* `Tape` — a stream of given draws, then zeros for ever.
-/

namespace Spintax

/-- A stream of 64-bit draws. -/
structure DrawSource (σ : Type) where
  /-- The next draw, and the stream after it. -/
  next : σ → UInt64 × σ
  /-- After how many draws thrown away a pick gives up and takes the first
  alternative. -/
  patience : σ → Nat

/-- The largest low word with which a draw among `n` alternatives is kept: `n`
moved to the top of the word, less one. -/
def acceptZone (n : Nat) : Nat :=
  (n <<< (63 - n.log2)) - 1

/-- The alternative among `n` that a draw chooses, unless it is thrown away. -/
def accept? (n : Nat) (v : UInt64) : Option Nat :=
  let product := v.toNat * n
  if product % UInt64.size ≤ acceptZone n then some (product / UInt64.size) else none

/-- An accepted word stands for one of the `n` positions. -/
theorem accept?_lt {n i : Nat} {v : UInt64} (hn : 0 < n) (h : accept? n v = some i) : i < n := by
  simp only [accept?] at h
  split at h
  · simp only [Option.some.injEq] at h
    subst h
    rw [Nat.div_lt_iff_lt_mul (by decide), Nat.mul_comm n]
    exact (Nat.mul_lt_mul_right hn).mpr v.toNat_lt_size
  · simp at h

namespace DrawSource

variable {σ : Type} (source : DrawSource σ)

/-- A pick among `n` alternatives with at most so many draws. -/
def pickWithin (n : Nat) : Nat → σ → Nat × σ
  | 0, s => (0, s)
  | attempts + 1, s =>
    let (v, s) := source.next s
    match accept? n v with
    | some i => (i, s)
    | none => pickWithin n attempts s

/-- A pick is one of the `n` positions, however many attempts it takes. -/
theorem pickWithin_lt {n : Nat} (hn : 0 < n) (attempts : Nat) (s : σ) :
    (source.pickWithin n attempts s).1 < n := by
  induction attempts generalizing s with
  | zero => exact hn
  | succ attempts ih =>
    simp only [pickWithin]
    split
    · next i h => exact accept?_lt hn h
    · exact ih _

/-- The picks of a stream. -/
def picker : Picker σ where
  pick n s := source.pickWithin n (source.patience s) s
  pick_lt s hn := source.pickWithin_lt hn (source.patience s) s

end DrawSource

/-! ## Given draws -/

/-- Draws that were given beforehand, and how many have been used so far. -/
structure Tape where
  draws : List UInt64
  used : Nat

namespace Tape

/-- The draws in order, then zeros for ever. As zero is always kept, a pick
needs at most one draw more than are left. -/
def source : DrawSource Tape where
  next s :=
    match s.draws with
    | [] => (0, { s with used := s.used + 1 })
    | v :: vs => (v, ⟨vs, s.used + 1⟩)
  patience s := s.draws.length + 1

end Tape

end Spintax
