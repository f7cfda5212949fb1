import Spintax.Variations.Listing

/-!
# Spintax — exact counts, picks and walks

What counting and listing are measured by. `Node.count` is the number of
renderings without any ceiling. A rendering is reached by *picks*, the
positions of the options taken at the choices with options, from left to right;
`Node.picks` lists every way to pick together with the rendering it leads to,
in the order of the picks.

The same is said once more without listing anything and without drawing: a walk
goes from left to right, picks one option at every choice with options that it
comes to, and nowhere else. `Node.Walk` holds of a tree, of the picks that are
made, in order, and of the rendering they lead to.
-/

namespace Spintax

namespace Node

/-! ## Counts and picks -/

mutual

def count : Node → Nat
  | .text _ => 1
  | .option _ children => countProduct children
  | .choice [] => 1
  | .choice (n :: ns) => countSum (n :: ns)
  | .root children => countProduct children

def countProduct : List Node → Nat
  | [] => 1
  | n :: ns => count n * countProduct ns

def countSum : List Node → Nat
  | [] => 0
  | n :: ns => count n + countSum ns

end

/-- Picks, and the rendering they lead to. -/
structure Picked where
  picks : List Nat
  text : List Char
deriving DecidableEq

namespace Picked

/-- Nothing picked and nothing rendered. -/
def none : Picked := ⟨[], []⟩

/-- Picks one after the other. -/
def append (p q : Picked) : Picked :=
  ⟨p.picks ++ q.picks, p.text ++ q.text⟩

/-- A pick before others. -/
def after (i : Nat) (p : Picked) : Picked :=
  { p with picks := i :: p.picks }

/-- A text before the rendering. -/
def precede (s : List Char) (p : Picked) : Picked :=
  { p with text := s ++ p.text }

end Picked

mutual

def picks : Node → List Picked
  | .text content => [⟨[], content⟩]
  | .option content children => (picksAll children).map (.precede content)
  | .choice [] => [.none]
  | .choice (n :: ns) => picksAmong 0 (n :: ns)
  | .root children => picksAll children

def picksAll : List Node → List Picked
  | [] => [.none]
  | n :: ns =>
    let tails := picksAll ns
    (picks n).flatMap fun p => tails.map p.append

/-- Every way to pick one of the options of a choice, of which the first is at
position `i`. -/
def picksAmong (i : Nat) : List Node → List Picked
  | [] => []
  | n :: ns => (picks n).map (.after i) ++ picksAmong (i + 1) ns

end

/-! ## Small laws -/

mutual

/-- There are as many renderings in the list as the count says. -/
theorem length_renderings (n : Node) : n.renderings.length = n.count := by
  match n with
  | .text _ => rfl
  | .option s ns => simp [renderings, count, length_continuations ns]
  | .choice [] => rfl
  | .choice (n :: ns) => simp [renderings, count, length_alternatives (n :: ns)]
  | .root ns => simp [renderings, count, length_continuations ns]

/-- Every beginning goes on in as many ways as the sequence has renderings. -/
theorem length_continuations (ns : List Node) (heads : List (List Char)) :
    (continuations ns heads).length = heads.length * countProduct ns := by
  match ns with
  | [] => simp [continuations, countProduct]
  | n :: ns =>
    rw [continuations, length_continuations ns, countProduct]
    -- every beginning is continued by the same number of renderings
    simp only [List.length_flatMap, List.length_map, length_renderings n, List.map_const',
      List.sum_replicate_nat, Nat.mul_assoc]

/-- A choice has the renderings of all its options together. -/
theorem length_alternatives (ns : List Node) :
    (alternatives ns).length = countSum ns := by
  match ns with
  | [] => rfl
  | n :: ns =>
    rw [alternatives, countSum, List.length_append, length_renderings n,
      length_alternatives ns]

end

end Node

/-! ## Walks -/

/-- A pick at a choice: the position that is taken, among so many options. -/
structure Pick where
  among : Nat
  position : Nat
deriving DecidableEq

namespace Node

mutual

/-- The picks lead through a tree to a rendering. -/
inductive Walk : Node → List Pick → List Char → Prop where
  | text (s : List Char) : Walk (.text s) [] s
  | option {s t : List Char} {ns : List Node} {w : List Pick} (h : WalkAll ns w t) :
      Walk (.option s ns) w (s ++ t)
  /-- There is nothing to pick from. -/
  | noOption : Walk (.choice []) [] []
  | choice {ns : List Node} {i : Nat} {n : Node} {w : List Pick} {t : List Char}
      (hTaken : ns[i]? = some n) (h : Walk n w t) :
      Walk (.choice ns) (⟨ns.length, i⟩ :: w) t
  | root {ns : List Node} {w : List Pick} {t : List Char} (h : WalkAll ns w t) :
      Walk (.root ns) w t

/-- The same for a sequence, one node after the other. -/
inductive WalkAll : List Node → List Pick → List Char → Prop where
  | nil : WalkAll [] [] []
  | cons {n : Node} {ns : List Node} {w v : List Pick} {s t : List Char} (h : Walk n w s)
      (hRest : WalkAll ns v t) : WalkAll (n :: ns) (w ++ v) (s ++ t)

end

end Node

end Spintax
