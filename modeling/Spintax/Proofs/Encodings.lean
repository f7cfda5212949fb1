import Spintax.Script.Json

/-!
# Spintax — scripts are read as they are written

Four encodings stand inside one another in a script: steps, mutations, trees and paths.
Each is read as it is written, from the inside out. What makes it so is nearly the same
in all of them: a record that is written puts its tag in front and has no field twice, so
`variant?` takes the tag off and `record?` finds the fields in the order that is asked
for. The reader of trees goes no deeper than the value nests; it gets to every node as
each child's value nests less deep than its parent's (`Node.nesting_toJson_lt`).

Steps and segments have no tag. A value can be a step in two ways, as a history command
and as a mutation, and a segment in two ways, as a position and as a field. No value is
both, written or not, so it does not matter which way is tried first.

* `Json.variant?_object`, `Json.record?_object` — written records;
* `Path.ofJson?_toJson`, `Node.ofJson?_toJson`, `Mutation.ofJson?_toJson` — the parts;
* `Step.ofWord?_eq_none_or` — commands and mutations apart;
* `Script.reads_what_is_written` — scripts.
-/

namespace Spintax

/-! ## Records -/

namespace Json

variable {name tag : String} {v t : Json} {fields : List (String × Json)}

theorem valuesOf_cons_self : valuesOf name ((name, v) :: fields) = v :: valuesOf name fields := by
  simp [valuesOf]

theorem valuesOf_cons_of_ne {other : String} (h : other ≠ name) :
    valuesOf name ((other, v) :: fields) = valuesOf name fields := by
  simp [valuesOf, h]

/-- A name that no field has stands for no value. -/
theorem valuesOf_eq_nil (h : name ∉ fields.map Prod.fst) : valuesOf name fields = [] := by
  induction fields with
  | nil => rfl
  | cons f fields ih =>
    rw [List.map_cons, List.mem_cons, not_or] at h
    show valuesOf name ((f.1, f.2) :: fields) = []
    rw [valuesOf_cons_of_ne (Ne.symm h.1), ih h.2]

/-- The tag that a written variant begins with is taken off. -/
theorem variant?_object (h : tag ∉ fields.map Prod.fst) :
    variant? tag (.object ((tag, t) :: fields)) = some (t, .object fields) := by
  have hOthers : fields.filter (fun f => f.1 != tag) = fields := by
    rw [List.filter_eq_self]
    intro f hf
    rw [bne_iff_ne]
    intro hTag
    exact h (hTag ▸ List.mem_map_of_mem hf)
  simp only [variant?, valuesOf_cons_self, valuesOf_eq_nil h]
  rw [List.filter_cons_of_neg (by simp), hOthers]

/-- Without a field of the tag's name, an object is no variant. -/
theorem variant?_object_eq_none (h : tag ∉ fields.map Prod.fst) :
    variant? tag (.object fields) = none := by
  rw [variant?, valuesOf_eq_nil h]

/-- Where no name comes twice, a field is found under its name. -/
theorem field?_of_mem (hNodup : (fields.map Prod.fst).Nodup) (h : (name, v) ∈ fields) :
    field? name fields = some (some v) := by
  have hValues : valuesOf name fields = [v] := by
    induction fields with
    | nil => exact absurd h List.not_mem_nil
    | cons f fields ih =>
      rw [List.map_cons, List.nodup_cons] at hNodup
      rcases List.mem_cons.mp h with rfl | h
      · rw [valuesOf_cons_self, valuesOf_eq_nil hNodup.1]
      · have hOther : f.1 ≠ name := by
          intro hName
          exact hNodup.1 (hName ▸ List.mem_map_of_mem h)
        show valuesOf name ((f.1, f.2) :: fields) = [v]
        rw [valuesOf_cons_of_ne hOther, ih hNodup.2 h]
  rw [field?, hValues]

/-- Each part of a list of values that `read` reads is read in its place. -/
theorem mapM_map {α β γ : Type _} {write : α → β} {read : β → Option γ} {value : α → γ}
    {xs : List α} (h : ∀ x ∈ xs, read (write x) = some (value x)) :
    (xs.map write).mapM read = some (xs.map value) := by
  induction xs with
  | nil => rfl
  | cons x xs ih =>
    have hHead := h x List.mem_cons_self
    have hTail := ih fun y hy => h y (List.mem_cons_of_mem x hy)
    rw [List.map_cons, List.mapM_cons, hHead, hTail]
    rfl

/-- If `read` undoes `write` on the parts, it does so on the list. -/
theorem mapM_map_self {α β : Type _} {write : α → β} {read : β → Option α} {xs : List α}
    (h : ∀ x ∈ xs, read (write x) = some x) : (xs.map write).mapM read = some xs := by
  have hRead : (xs.map write).mapM read = some (xs.map id) := mapM_map h
  rw [hRead, List.map_id]

/-- A written record is read field by field. -/
theorem record?_object (h : (fields.map Prod.fst).Nodup) :
    record? (fields.map Prod.fst) (.object fields) = some (fields.map fun f => some f.2) :=
  mapM_map fun _ hf => field?_of_mem h hf

/-! ### Nesting -/

/-- An item nests no deeper than the list of all. -/
theorem nesting_le_nestingAll {items : List Json} (h : v ∈ items) :
    v.nesting ≤ nestingAll items := by
  induction items with
  | nil => exact absurd h List.not_mem_nil
  | cons w items ih =>
    rw [nestingAll]
    rcases List.mem_cons.mp h with rfl | h
    · exact Nat.le_max_left _ _
    · exact Nat.le_trans (ih h) (Nat.le_max_right _ _)

/-- A field nests no deeper than all the fields. -/
theorem nesting_le_nestingFields (h : (name, v) ∈ fields) : v.nesting ≤ nestingFields fields := by
  induction fields with
  | nil => exact absurd h List.not_mem_nil
  | cons f fields ih =>
    rw [nestingFields]
    rcases List.mem_cons.mp h with rfl | h
    · exact Nat.le_max_left _ _
    · exact Nat.le_trans (ih h) (Nat.le_max_right _ _)

/-- What stands in a list inside an object nests less deep than the object, by two. -/
theorem nesting_lt_of_mem {items : List Json} (hItem : v ∈ items)
    (hField : (name, .array items) ∈ fields) : v.nesting + 1 < (Json.object fields).nesting := by
  have hList := nesting_le_nestingAll hItem
  have hObject := nesting_le_nestingFields hField
  rw [nesting] at hObject
  rw [nesting]
  omega

end Json

/-! ## Paths -/

namespace Segment

/-- The position of a segment that is one. -/
def position? : Segment → Option UInt64
  | .index i => some i
  | .field _ => none

/-- The name of a segment that is a field. -/
def name? : Segment → Option String
  | .index _ => none
  | .field name => some name

/-- A written segment is read as a position exactly if it is one. -/
theorem word?_toJson (segment : Segment) : segment.toJson.word? = segment.position? := by
  cases segment with
  | index i => exact Json.word?_natural i
  | field name => rfl

/-- A written segment is read as a field exactly if it is one. -/
theorem string?_toJson (segment : Segment) : segment.toJson.string? = segment.name? := by
  cases segment with
  | index i => rfl
  | field name => rfl

/-- A segment is a position if it can be, else a field. -/
theorem ofJson?_eq (v : Json) :
    ofJson? v = (v.word?.map .index).or (v.string?.map .field) := by
  cases v <;> simp [ofJson?, Json.word?, Json.string?]

/-- No value is both a position and a field. -/
theorem word?_eq_none_or (v : Json) : v.word? = none ∨ v.string? = none := by
  cases v <;> simp [Json.word?, Json.string?]

/-- A segment is read as it is written. -/
theorem ofJson?_toJson (segment : Segment) : ofJson? segment.toJson = some segment := by
  rw [ofJson?_eq, word?_toJson, string?_toJson]
  cases segment with
  | index i => rfl
  | field name => rfl

end Segment

/-- **A path is read as it is written**, whether or not it is well formed. -/
theorem Path.ofJson?_toJson (p : Path) : ofJson? p.toJson = some p := by
  have hSegments : (p.segments.map Segment.toJson).mapM Segment.ofJson? = some p.segments :=
    Json.mapM_map_self fun segment _ => segment.ofJson?_toJson
  show ((p.segments.map Segment.toJson).mapM Segment.ofJson?).bind _ = some p
  rw [hSegments]
  rfl

/-! ## Trees -/

namespace Node

theorem contentOfJson?_string (content : List Char) :
    contentOfJson? (.string (String.ofList content)) = some content := by
  show some (String.ofList content).toList = some content
  rw [String.toList_ofList]

/-- Children are read as they are written, if each of them is. -/
theorem childrenOfJson?_toJsonAll {read : Json → Option Node} {children : List Node}
    (h : ∀ child ∈ children, read child.toJson = some child) :
    childrenOfJson? read (.array (toJsonAll children)) = some children := by
  show (toJsonAll children).mapM read = some children
  rw [toJsonAll_eq_map]
  exact Json.mapM_map_self h

/-- The fields of a written node, its type apart. -/
def fieldsOf : Node → List (String × Json)
  | .text content => [("content", .string (String.ofList content))]
  | .option content children =>
    [("content", .string (String.ofList content)), ("children", .array (toJsonAll children))]
  | .choice children => [("children", .array (toJsonAll children))]
  | .root children => [("children", .array (toJsonAll children))]

/-- A node is written with its type in front of its other fields. -/
theorem toJson_eq (n : Node) :
    n.toJson = .object (("type", .string n.kind.name) :: n.fieldsOf) := by
  cases n <;> rw [toJson] <;> rfl

/-- The type of a written node is taken off. -/
theorem variant?_toJson (n : Node) :
    n.toJson.variant? "type" = some (.string n.kind.name, .object n.fieldsOf) := by
  rw [toJson_eq]
  apply Json.variant?_object
  cases n <;> simp [fieldsOf]

/-- Children are written in a field of their own. -/
theorem nesting_toJson_lt {n child : Node} {children : List Node} (h : n.children? = some children)
    (hChild : child ∈ children) : child.toJson.nesting < n.toJson.nesting := by
  have hItem : child.toJson ∈ toJsonAll children := by
    rw [toJsonAll_eq_map]
    exact List.mem_map_of_mem hChild
  have hField : ("children", Json.array (toJsonAll children)) ∈
      ("type", .string n.kind.name) :: n.fieldsOf := by
    cases n with
    | text content => exact absurd h nofun
    | option content _ => cases h; simp [fieldsOf]
    | choice _ => cases h; simp [fieldsOf]
    | root _ => cases h; simp [fieldsOf]
  have hLess := Json.nesting_lt_of_mem hItem hField
  rw [toJson_eq n]
  omega

theorem record?_fieldsOf (n : Node) :
    Json.record? (n.fieldsOf.map Prod.fst) (.object n.fieldsOf) =
      some (n.fieldsOf.map fun f => some f.2) := by
  apply Json.record?_object
  cases n <;> simp [fieldsOf]

/-- If the children are read, the node is. -/
theorem ofRecord?_fieldsOf {read : Json → Option Node} (n : Node)
    (h : ∀ children, n.children? = some children → ∀ child ∈ children,
      read child.toJson = some child) :
    ofRecord? read (.object n.fieldsOf) n.kind = some n := by
  -- the fields are found again under their names, so that only their values are to be read
  have hFields := record?_fieldsOf n
  cases n with
  | text content =>
    simp only [fieldsOf, List.map_cons, List.map_nil] at hFields
    simp only [fieldsOf, kind, ofRecord?, hFields, Option.bind_eq_bind, Option.bind_some,
      Json.required, contentOfJson?_string]
    rfl
  | option content children =>
    have hChildren := childrenOfJson?_toJsonAll (h children rfl)
    simp only [fieldsOf, List.map_cons, List.map_nil] at hFields
    simp only [fieldsOf, kind, ofRecord?, hFields, Option.bind_eq_bind, Option.bind_some,
      Json.required, Json.orDefault, contentOfJson?_string, hChildren]
    rfl
  | choice children =>
    have hChildren := childrenOfJson?_toJsonAll (h children rfl)
    simp only [fieldsOf, List.map_cons, List.map_nil] at hFields
    simp only [fieldsOf, kind, ofRecord?, hFields, Option.bind_eq_bind, Option.bind_some,
      Json.orDefault, hChildren]
    rfl
  | root children =>
    have hChildren := childrenOfJson?_toJsonAll (h children rfl)
    simp only [fieldsOf, List.map_cons, List.map_nil] at hFields
    simp only [fieldsOf, kind, ofRecord?, hFields, Option.bind_eq_bind, Option.bind_some,
      Json.orDefault, hChildren]
    rfl

/-- A depth that the value does not exceed is enough to read it. -/
theorem ofJsonWithin?_toJson {depth : Nat} {n : Node} (byNumber : Bool)
    (h : n.toJson.nesting ≤ depth) : ofJsonWithin? depth byNumber n.toJson = some n := by
  induction depth generalizing n byNumber with
  | zero =>
    -- a node is written as an object
    rw [toJson_eq, Json.nesting] at h
    omega
  | succ depth ih =>
    have hRecord : ofRecord? (ofJsonWithin? depth true) (.object n.fieldsOf) n.kind = some n := by
      apply ofRecord?_fieldsOf
      intro children hChildren child hChild
      have hLess := nesting_toJson_lt hChildren hChild
      exact ih true (by omega)
    show (n.toJson.variant? "type").bind _ = some n
    rw [variant?_toJson]
    show (Kind.ofJson? byNumber (.string n.kind.name)).bind _ = some n
    rw [Kind.ofJson?_name]
    exact hRecord

/-- **A tree is read as it is written.** -/
theorem ofJson?_toJson (byNumber : Bool) (n : Node) : ofJson? byNumber n.toJson = some n :=
  ofJsonWithin?_toJson byNumber (Nat.le_refl _)

end Node

/-! ## Mutations -/

namespace Mutation

/-- The fields of a written mutation, its name apart. -/
def fieldsOf : Mutation → List (String × Json)
  | .update path node => [("path", path.toJson), ("node", node.toJson)]
  | .insert path node => [("path", path.toJson), ("node", node.toJson)]
  | m => [("path", m.path.toJson)]

/-- A mutation is written with its name in front of its other fields. -/
theorem toJson_eq (m : Mutation) :
    m.toJson = .object (("op", .string m.name) :: m.fieldsOf) := by
  cases m <;> rfl

/-- The name of a written mutation is taken off. -/
theorem variant?_toJson (m : Mutation) :
    m.toJson.variant? "op" = some (.string m.name, .object m.fieldsOf) := by
  rw [toJson_eq]
  apply Json.variant?_object
  cases m <;> simp [fieldsOf]

/-- A mutation that has a path alone is made of the written path. -/
theorem ofPath?_object (make : Path → Mutation) (path : Path) :
    ofPath? make (.object [("path", path.toJson)]) = some (make path) := by
  have hFields : Json.record? ["path"] (.object [("path", path.toJson)]) =
      some [some path.toJson] := Json.record?_object (by simp)
  rw [ofPath?, hFields]
  show (Path.ofJson? path.toJson).bind (fun path => some (make path)) = some (make path)
  rw [Path.ofJson?_toJson, Option.bind_some]

/-- One with a node is made of the written path and the written node. -/
theorem ofPathAndNode?_object (make : Path → Node → Mutation) (path : Path) (node : Node) :
    ofPathAndNode? make (.object [("path", path.toJson), ("node", node.toJson)]) =
      some (make path node) := by
  have hFields : Json.record? ["path", "node"]
      (.object [("path", path.toJson), ("node", node.toJson)]) =
      some [some path.toJson, some node.toJson] :=
    Json.record?_object (by simp)
  rw [ofPathAndNode?, hFields]
  show (Path.ofJson? path.toJson).bind (fun path =>
    (Node.ofJson? true node.toJson).bind fun node => some (make path node)) = some (make path node)
  rw [Path.ofJson?_toJson, Option.bind_some, Node.ofJson?_toJson, Option.bind_some]

/-- **A mutation is read as it is written.** -/
theorem ofJson?_toJson (byNumber : Bool) (m : Mutation) : ofJson? byNumber m.toJson = some m := by
  show (m.toJson.variant? "op").bind _ = some m
  rw [variant?_toJson]
  cases m with
  | update path node => exact ofPathAndNode?_object .update path node
  | delete path => exact ofPath?_object .delete path
  | insert path node => exact ofPathAndNode?_object .insert path node
  | moveUp path => exact ofPath?_object .moveUp path
  | moveDown path => exact ofPath?_object .moveDown path

end Mutation

/-! ## Steps -/

namespace Step

/-- The step itself, if it is a history command. -/
def command? : Step → Option Step
  | .edit _ => none
  | step => some step

/-- The mutation of a step that is one. -/
def mutation? : Step → Option Mutation
  | .edit m => some m
  | _ => none

/-- No word is the name of the field that tells mutations apart. -/
theorem ofWord?_eq_none_or (byNumber : Bool) (v : Json) :
    ofWord? v = none ∨ Mutation.ofJson? byNumber v = none := by
  unfold ofWord?
  split
  · -- a word alone has no fields
    exact .inr rfl
  · next word =>
    by_cases hOp : word = "op"
    · subst hOp
      exact .inl rfl
    · have hVariant : Json.variant? "op" (.object [(word, .null)]) = none :=
        Json.variant?_object_eq_none (by simp [Ne.symm hOp])
      right
      show (Json.variant? "op" _).bind _ = none
      rw [hVariant]
      rfl
  · exact .inl rfl

/-- A written step is read as a mutation exactly if it is one. -/
theorem mutationOfJson?_toJson (byNumber : Bool) (step : Step) :
    Mutation.ofJson? byNumber step.toJson = step.mutation? := by
  cases step with
  | edit m => exact Mutation.ofJson?_toJson byNumber m
  | _ => rfl

/-- A written step is read as a command exactly if it is one. -/
theorem ofWord?_toJson (step : Step) : ofWord? step.toJson = step.command? := by
  cases step with
  | edit m =>
    have hMutation := Mutation.ofJson?_toJson true m
    rcases ofWord?_eq_none_or true m.toJson with hWord | hNone
    · exact hWord
    · rw [hNone] at hMutation
      exact absurd hMutation nofun
  | _ => rfl

/-- A step is a command if it can be, else a mutation. -/
theorem ofJson?_eq (v : Json) :
    ofJson? v = (ofWord? v).or ((Mutation.ofJson? true v).map .edit) := by
  unfold ofJson?
  split
  · next step h => rw [h, Option.some_or]
  · next h => rw [h, Option.none_or]

/-- **A step is read as it is written.** -/
theorem ofJson?_toJson (step : Step) : ofJson? step.toJson = some step := by
  rw [ofJson?_eq, ofWord?_toJson, mutationOfJson?_toJson]
  cases step <;> rfl

end Step

/-! ## Scripts -/

/-- Scripts are read as they are written, whatever their paths and trees. A written step
is read as a command just if it is one, and as a mutation just if it is one; a written
segment as a position just if it is one, and as a field just if it is one. Of any value
at all, at most one of two such readings succeeds. -/
theorem Script.reads_what_is_written :
    (∀ steps : List Step, ofJson? (toJson steps) = some steps) ∧
      (∀ step : Step, Step.ofWord? step.toJson = step.command? ∧
        Mutation.ofJson? true step.toJson = step.mutation?) ∧
      (∀ v : Json, Step.ofJson? v =
          (Step.ofWord? v).or ((Mutation.ofJson? true v).map .edit) ∧
        (Step.ofWord? v = none ∨ Mutation.ofJson? true v = none)) ∧
      (∀ segment : Segment, segment.toJson.word? = segment.position? ∧
        segment.toJson.string? = segment.name?) ∧
      (∀ v : Json, Segment.ofJson? v = (v.word?.map .index).or (v.string?.map .field) ∧
        (v.word? = none ∨ v.string? = none)) := by
  refine ⟨?_, ?_, ?_, ?_, ?_⟩
  · intro steps
    show (steps.map Step.toJson).mapM Step.ofJson? = some steps
    exact Json.mapM_map_self fun step _ => step.ofJson?_toJson
  · intro step
    exact ⟨step.ofWord?_toJson, step.mutationOfJson?_toJson true⟩
  · intro v
    exact ⟨Step.ofJson?_eq v, Step.ofWord?_eq_none_or true v⟩
  · intro segment
    exact ⟨segment.word?_toJson, segment.string?_toJson⟩
  · intro v
    exact ⟨Segment.ofJson?_eq v, Segment.word?_eq_none_or v⟩

end Spintax
