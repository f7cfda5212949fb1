import Spintax.Sampling.Draws

/-!
# Spintax — draws from a seed

A seed of 64 bits becomes a key of eight words through a linear congruential
generator whose output is shuffled by a rotation. The draws are the key stream
of ChaCha with twelve rounds under that key: block after block of sixteen
words, each draw made of two words, the low half first.

* `Seeded.key` — the key of a seed;
* `Seeded.block` — a block of the key stream;
* `Seeded.source` — the draws.
-/

namespace Spintax.Seeded

/-! ## The key -/

/-- One step of the generator that spreads the seed. -/
def advance (state : UInt64) : UInt64 :=
  state * 6364136223846793005 + 11634580027462260723

/-- A word rotated to the right by less than its length. -/
def rotateRight (x n : UInt32) : UInt32 :=
  -- for `n = 0` both halves are `x` itself
  (x >>> n) ||| (x <<< ((32 - n) % 32))

/-- A word rotated to the left by less than its length. -/
def rotateLeft (x n : UInt32) : UInt32 :=
  (x <<< n) ||| (x >>> ((32 - n) % 32))

/-- The word that a state of the generator puts out. -/
def output (state : UInt64) : UInt32 :=
  rotateRight (((state >>> 18) ^^^ state) >>> 27).toUInt32 (state >>> 59).toUInt32

/-- So many words from a state on. -/
def words : Nat → UInt64 → List UInt32
  | 0, _ => []
  | n + 1, state => output (advance state) :: words n (advance state)

/-- The eight words of the key of a seed. -/
def key (seed : UInt64) : List UInt32 :=
  words 8 seed

/-! ## The key stream -/

/-- The sixteen words of a block. -/
abbrev Block := Vector UInt32 16

/-- The quarter round on four places of a block. -/
def quarterRound (a b c d : Fin 16) (s : Block) : Block :=
  let s := s.set a (s[a] + s[b])
  let s := s.set d (rotateLeft (s[d] ^^^ s[a]) 16)
  let s := s.set c (s[c] + s[d])
  let s := s.set b (rotateLeft (s[b] ^^^ s[c]) 12)
  let s := s.set a (s[a] + s[b])
  let s := s.set d (rotateLeft (s[d] ^^^ s[a]) 8)
  let s := s.set c (s[c] + s[d])
  s.set b (rotateLeft (s[b] ^^^ s[c]) 7)

/-- A round on the columns and a round on the diagonals. -/
def doubleRound (s : Block) : Block :=
  let s := quarterRound 0 4 8 12 s
  let s := quarterRound 1 5 9 13 s
  let s := quarterRound 2 6 10 14 s
  let s := quarterRound 3 7 11 15 s
  let s := quarterRound 0 5 10 15 s
  let s := quarterRound 1 6 11 12 s
  let s := quarterRound 2 7 8 13 s
  quarterRound 3 4 9 14 s

/-- The block that the rounds start from: constants, key, and the number of
the block. -/
def initial (key : List UInt32) (counter : UInt64) : Block :=
  Vector.ofFn fun i =>
    match i.val with
    | 0 => 0x61707865
    | 1 => 0x3320646e
    | 2 => 0x79622d32
    | 3 => 0x6b206574
    | 12 => counter.toUInt32
    | 13 => (counter >>> 32).toUInt32
    | 14 => 0
    | 15 => 0
    | n => key.getD (n - 4) 0

/-- A block of the key stream: six double rounds, and the initial block added. -/
def block (key : List UInt32) (counter : UInt64) : Block :=
  let start := initial key counter
  let mixed := Nat.repeat doubleRound 6 start
  mixed.zipWith (· + ·) start

/-- Words in pairs, the low half first. -/
def pairs : List UInt32 → List UInt64
  | low :: high :: rest => (low.toUInt64 ||| (high.toUInt64 <<< 32)) :: pairs rest
  | _ => []

/-! ## The draws -/

/-- A place in the stream: the key, the number of the next block, and the
draws left of the last one. -/
structure Stream where
  key : List UInt32
  counter : UInt64
  ready : List UInt64

/-- The beginning of the stream of a seed. -/
def start (seed : UInt64) : Stream :=
  ⟨key seed, 0, []⟩

/-- The next draw; a new block is made when the last one is used up. -/
def next (s : Stream) : UInt64 × Stream :=
  match s.ready with
  | v :: ready => (v, { s with ready })
  | [] =>
    -- a block has sixteen words, so there is always a first pair
    match pairs (block s.key s.counter).toList with
    | v :: ready => (v, { s with counter := s.counter + 1, ready })
    | [] => (0, { s with counter := s.counter + 1 })

/-- The draws of a seed. A draw is thrown away with a chance below one half,
so the patience is never used up in practice. -/
def source : DrawSource Stream where
  next := next
  patience _ := 4096

end Spintax.Seeded
