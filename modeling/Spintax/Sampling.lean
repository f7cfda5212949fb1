import Spintax.Node

/-!
# Spintax — sampling

One rendering of a tree is drawn by picking an option at every choice that is
reached, from left to right. Who picks is left open: a `Picker` is asked for a
position among so many alternatives and goes on from state to state.

* `Picker` — a way to pick;
* `Node.sample`, `Node.samples` — renderings;
* `length_samples` — as many renderings as were asked for.

Picks that are left to chance are in `Spintax.Sampling.Draws`.
-/

namespace Spintax

/-- A way to pick one of several alternatives. -/
structure Picker (σ : Type) where
  /-- The position picked among so many alternatives, and the state after it. -/
  pick : Nat → σ → Nat × σ
  /-- The position is that of an alternative. -/
  pick_lt : ∀ {n : Nat} (s : σ), 0 < n → (pick n s).1 < n

namespace Node

mutual

/-- A rendering of the tree. A choice without options has the empty rendering,
and nothing is picked there. -/
def sample {σ : Type} (picker : Picker σ) : Node → σ → List Char × σ
  | .text content, s => (content, s)
  | .option content children, s =>
    let (tail, s) := sampleAll picker children s
    (content ++ tail, s)
  | .choice [], s => ([], s)
  | .choice (n :: ns), s =>
    let (i, s) := picker.pick (n :: ns).length s
    sampleAt picker (n :: ns) i s
  | .root children, s => sampleAll picker children s

/-- A rendering of a sequence. -/
def sampleAll {σ : Type} (picker : Picker σ) : List Node → σ → List Char × σ
  | [], s => ([], s)
  | n :: ns, s =>
    let (head, s) := sample picker n s
    let (tail, s) := sampleAll picker ns s
    (head ++ tail, s)

/-- A rendering of the node at a position. -/
def sampleAt {σ : Type} (picker : Picker σ) : List Node → Nat → σ → List Char × σ
  | [], _, s => ([], s)
  | n :: _, 0, s => sample picker n s
  | _ :: ns, i + 1, s => sampleAt picker ns i s

end

/-- So many renderings, each from the state that the one before it left. -/
def samples {σ : Type} (picker : Picker σ) (n : Node) : Nat → σ → List (List Char) × σ
  | 0, s => ([], s)
  | count + 1, s =>
    let (first, s) := n.sample picker s
    let (others, s) := samples picker n count s
    (first :: others, s)

/-! ## Small laws -/

/-- There are as many samples as are asked for. -/
theorem length_samples {σ : Type} (picker : Picker σ) (n : Node) (count : Nat) (s : σ) :
    (n.samples picker count s).1.length = count := by
  induction count generalizing s with
  | zero => rfl
  | succ count ih => simp [samples, ih]

/-- What stands at a position is sampled as that node. -/
theorem sampleAt_eq {σ : Type} (picker : Picker σ) {ns : List Node} {i : Nat} {n : Node}
    (h : ns[i]? = some n) (s : σ) : sampleAt picker ns i s = n.sample picker s := by
  induction ns generalizing i with
  | nil => simp at h
  | cons m ns ih =>
    cases i with
    | zero =>
      simp only [List.getElem?_cons_zero, Option.some.injEq] at h
      rw [sampleAt, h]
    | succ i =>
      simp only [List.getElem?_cons_succ] at h
      rw [sampleAt, ih h]

end Node

end Spintax
