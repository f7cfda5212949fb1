import Spintax.Node

/-!
# Spintax — the source text of a tree

`Node.source` writes a tree back as spun text: a literal as it stands, a
choice in braces with a bar between two options. A choice without options is
written as one with a single empty option, which renders alike. Braces, bars
and backslashes inside a literal are not escaped again, so a literal is its
own source. `Node.literals` lists the literals that are written.
-/

namespace Spintax.Node

mutual

/-- The spun text of a tree. -/
def source : Node → List Char
  | .text content => content
  | .option content children => content ++ (sources children).flatten
  | .choice children => '{' :: (['|'].intercalate (sources children) ++ ['}'])
  | .root children => (sources children).flatten

def sources : List Node → List (List Char)
  | [] => []
  | n :: ns => source n :: sources ns

end

/-- The spun text of a tree, if there is one. -/
def sourceOf (n? : Option Node) : List Char :=
  (n?.map source).getD []

mutual

/-- The literals of a tree, in the order in which they are written. -/
def literals : Node → List (List Char)
  | .text content => [content]
  | .option content children => content :: literalsAll children
  | .choice children => literalsAll children
  | .root children => literalsAll children

def literalsAll : List Node → List (List Char)
  | [] => []
  | n :: ns => literals n ++ literalsAll ns

end

/-! ## Small laws -/

/-- The sources of a list of nodes are those of its nodes. -/
theorem sources_eq_map (ns : List Node) : sources ns = ns.map source := by
  induction ns with
  | nil => rfl
  | cons n ns ih => rw [sources, ih, List.map_cons]

@[simp] theorem source_text (s : List Char) : (text s).source = s := rfl

theorem source_option (s : List Char) (ns : List Node) :
    (option s ns).source = s ++ ns.flatMap source := by
  simp [source, sources_eq_map, List.flatMap_def]

theorem source_root (ns : List Node) : (root ns).source = ns.flatMap source := by
  simp [source, sources_eq_map, List.flatMap_def]

theorem source_choice (ns : List Node) :
    (choice ns).source = '{' :: (['|'].intercalate (ns.map source) ++ ['}']) := by
  simp [source, sources_eq_map]

/-- The literals of a list of nodes are those of its nodes. -/
theorem literalsAll_eq_flatMap (ns : List Node) : literalsAll ns = ns.flatMap literals := by
  induction ns with
  | nil => rfl
  | cons n ns ih => rw [literalsAll, ih, List.flatMap_cons]

theorem literals_option (s : List Char) (ns : List Node) :
    (option s ns).literals = s :: ns.flatMap literals := by
  rw [literals, literalsAll_eq_flatMap]

theorem literals_choice (ns : List Node) : (choice ns).literals = ns.flatMap literals :=
  literalsAll_eq_flatMap ns

theorem literals_root (ns : List Node) : (root ns).literals = ns.flatMap literals :=
  literalsAll_eq_flatMap ns

end Spintax.Node
