import Spintax.Proofs.Normal
import Spintax.Proofs.Places

/-!
# Spintax — paths as text

Reading a path cuts a text at its slashes, takes each part for a position if it is a
numeral and for a field if not, and asks whether fields and positions alternate. All
three together accept exactly the texts whose parts are the word `children` and a
numeral in turn (`Path.Spells`), which is said here without any of the three. Segments
are the ones of a list of positions just if the parts spell it
(`Path.map_segmentOfText_eq_iff`), and a path is well formed just if its segments are
such (`Path.indices_eq_ok_iff`). What is displayed has a slash in front of each part, so
it is cut into those parts again.

* `Text.IsNumeral`, `Text.numeral?_eq_some_iff` — numerals;
* `Path.Spells` — the parts of a written path;
* `Path.ofText_reads_exactly` — which texts are paths, and which path a text is.
-/

namespace Spintax

namespace Text

/-! ## Numerals -/

/-- A way to write a position: ASCII digits, after a plus sign or not. -/
def IsNumeral (part : List Char) (i : UInt64) : Prop :=
  ∃ digits, (part = digits ∨ part = '+' :: digits) ∧ digits ≠ [] ∧
    (∀ c ∈ digits, c.isDigit = true) ∧ Nat.ofDigitChars 10 digits 0 = i.toNat

variable {part ds : List Char} {i : UInt64}

/-- Digits have no sign to drop. -/
theorem dropPlus_of_isDigit (h : ∀ c ∈ ds, c.isDigit = true) : dropPlus ds = ds := by
  unfold dropPlus
  split
  · exact absurd (h '+' List.mem_cons_self) (by decide)
  · rfl

/-- Only a run of digits has a value, and it is the one that the digits stand for. -/
theorem digitsValue?_eq_some_iff {n : Nat} :
    digitsValue? ds = some n ↔
      ds ≠ [] ∧ (∀ c ∈ ds, c.isDigit = true) ∧ Nat.ofDigitChars 10 ds 0 = n := by
  unfold digitsValue?
  split
  · next h =>
    rw [List.all_eq_true] at h
    rw [Option.some.injEq, and_iff_right h.1, and_iff_right h.2]
  · next h =>
    simp only [reduceCtorEq, false_iff]
    rintro ⟨hNil, hDigits, -⟩
    exact h ⟨hNil, List.all_eq_true.mpr hDigits⟩

/-- **A numeral is read exactly if it is one.** -/
theorem numeral?_eq_some_iff : numeral? part = some i ↔ IsNumeral part i := by
  have hWord : numeral? part = some i ↔ digitsValue? (dropPlus part) = some i.toNat := by
    rw [numeral?, Option.bind_eq_some_iff]
    constructor
    · rintro ⟨n, hValue, hWord⟩
      rw [hValue, toWord?_eq_some_iff.mp hWord]
    · intro hValue
      exact ⟨i.toNat, hValue, toWord?_toNat i⟩
  rw [hWord, digitsValue?_eq_some_iff]
  constructor
  · rintro ⟨hNil, hDigits, hValue⟩
    refine ⟨dropPlus part, ?_, hNil, hDigits, hValue⟩
    unfold dropPlus
    split
    · exact .inr rfl
    · exact .inl rfl
  · rintro ⟨digits, hPart, hNil, hDigits, hValue⟩
    have hDrop : dropPlus part = digits := by
      rcases hPart with rfl | rfl
      · exact dropPlus_of_isDigit hDigits
      · rfl
    rw [hDrop]
    exact ⟨hNil, hDigits, hValue⟩

theorem isNumeral_digits (i : UInt64) : IsNumeral (digits i.toNat) i :=
  numeral?_eq_some_iff.mp (numeral?_digits i)

/-- No digit is a blank. -/
theorem isBlank_of_isDigit {c : Char} (h : c.isDigit = true) : isBlank c = false := by
  rw [Char.isDigit, Bool.and_eq_true, decide_eq_true_eq, decide_eq_true_eq] at h
  have hLow : 48 ≤ c.toNat := UInt32.le_iff_toNat_le.mp h.1
  have hHigh : c.toNat ≤ 57 := UInt32.le_iff_toNat_le.mp h.2
  simp only [isBlank, blankRanges, List.any_cons, List.any_nil, Bool.or_false, Bool.or_eq_false_iff,
    Bool.and_eq_false_iff, decide_eq_false_iff_not]
  omega

/-- A text without blanks has none at its ends. -/
theorem trim_eq_self_of_forall {s : List Char} (h : ∀ c ∈ s, isBlank c = false) : trim s = s := by
  refine trim_eq_self ?_ ?_
  · rw [startsBlank, Option.any_eq_false]
    intro c hc
    rw [h c (List.mem_of_mem_head? hc)]
  · rw [endsBlank, Option.any_eq_false]
    intro c hc
    rw [h c (List.mem_of_getLast? hc)]

/-- Pieces that each come after the separator, as parts of a text that begins with it. -/
theorem flatMap_separator_cons (separator : Char) (parts : List (List Char)) :
    parts.flatMap (separator :: ·) = [separator].intercalate ([] :: parts) := by
  have hAfter : ∀ first : List Char,
      [separator].intercalate (first :: parts) = first ++ parts.flatMap (separator :: ·) := by
    induction parts with
    | nil => simp [List.intercalate]
    | cons part parts ih =>
      intro first
      rw [List.intercalate_cons_cons, ih part, List.flatMap_cons, List.append_assoc]
      rfl
  rw [hAfter []]
  rfl

end Text

namespace Path

/-! ## Parts -/

/-- The parts between the slashes of a text that are not empty. -/
def partsOf (s : String) : List (List Char) :=
  ((Text.trim s.toList).splitOn '/').filter fun part => !part.isEmpty

/-- Parts that spell a list of positions: each numeral comes after the word `children`. -/
inductive Spells : List (List Char) → List UInt64 → Prop
  | root : Spells [] []
  | child {part : List Char} {i : UInt64} {parts : List (List Char)} {is : List UInt64}
      (hPart : Text.IsNumeral part i) (hParts : Spells parts is) :
      Spells (childrenField.toList :: part :: parts) (i :: is)

variable {part : List Char} {parts : List (List Char)} {i : UInt64} {is : List UInt64} {p : Path}

/-- A part is read as a position exactly if it is a numeral. -/
theorem segmentOfText_eq_index_iff : segmentOfText part = .index i ↔ Text.IsNumeral part i := by
  rw [← Text.numeral?_eq_some_iff, segmentOfText]
  split
  · next j hPart => rw [hPart, Segment.index.injEq, Option.some.injEq]
  · next hPart => simp [hPart]

/-- The word `children` is no numeral, so it is always a field. -/
theorem segmentOfText_eq_children_iff :
    segmentOfText part = .field childrenField ↔ part = childrenField.toList := by
  constructor
  · intro h
    unfold segmentOfText at h
    split at h
    · exact absurd h nofun
    · rw [← Segment.field.inj h, String.toList_ofList]
  · rintro rfl
    have hWord : Text.numeral? childrenField.toList = none := by decide
    rw [segmentOfText, hWord, String.ofList_toList]

/-- **Parts are read as the segments of a list of positions just if they spell it.** -/
theorem map_segmentOfText_eq_iff : parts.map segmentOfText = segmentsOf is ↔ Spells parts is := by
  constructor
  · intro h
    induction is generalizing parts with
    | nil =>
      obtain rfl := List.map_eq_nil_iff.mp h
      exact .root
    | cons i is ih =>
      rw [segmentsOf, List.map_eq_cons_iff] at h
      obtain ⟨word, rest, rfl, hWord, hRest⟩ := h
      rw [List.map_eq_cons_iff] at hRest
      obtain ⟨part, parts, rfl, hPart, hParts⟩ := hRest
      obtain rfl := segmentOfText_eq_children_iff.mp hWord
      exact .child (segmentOfText_eq_index_iff.mp hPart) (ih hParts)
  · intro h
    induction h with
    | root => rfl
    | child hPart _ ih =>
      rw [List.map_cons, List.map_cons, segmentOfText_eq_children_iff.mpr rfl,
        segmentOfText_eq_index_iff.mpr hPart, ih, segmentsOf]

/-- **The only path with given positions** is the one that is made of them. -/
theorem indices_eq_ok_iff : p.indices = .ok is ↔ p = ofIndices is := by
  constructor
  · intro h
    obtain ⟨segments⟩ := p
    exact congrArg mk (segments_of_indices h)
  · rintro rfl
    exact indices_ofIndices is

/-- **A text is read as a path exactly if its parts spell positions.** -/
theorem ofText_eq_ok_iff {s : String} :
    ofText s = .ok p ↔ ∃ is, Spells (partsOf s) is ∧ p = ofIndices is := by
  -- the parts that are read are those that are meant
  rw [ofText, ← partsOf]
  constructor
  · intro h
    split at h
    · next is hIndices =>
      obtain rfl := Except.ok.inj h
      exact ⟨is, map_segmentOfText_eq_iff.mp (segments_of_indices hIndices),
        indices_eq_ok_iff.mp hIndices⟩
    · exact absurd h nofun
  · rintro ⟨is, hSpells, rfl⟩
    have hPath : (⟨(partsOf s).map segmentOfText⟩ : Path) = ofIndices is :=
      congrArg mk (map_segmentOfText_eq_iff.mpr hSpells)
    simp only [hPath, indices_ofIndices]

/-! ## What is displayed -/

/-- The parts that are displayed for a list of positions. -/
def shownParts (is : List UInt64) : List (List Char) :=
  is.flatMap fun i => [childrenField.toList, Text.digits i.toNat]

theorem shownParts_cons (i : UInt64) (is : List UInt64) :
    shownParts (i :: is) = childrenField.toList :: Text.digits i.toNat :: shownParts is := rfl

/-- The parts that are displayed spell the positions. -/
theorem spells_shownParts (is : List UInt64) : Spells (shownParts is) is := by
  induction is with
  | nil => exact .root
  | cons i is ih => exact .child (Text.isNumeral_digits i) ih

/-- Each of them is the name of the field or a number. -/
theorem of_mem_shownParts (h : part ∈ shownParts is) :
    part = childrenField.toList ∨ ∃ i : UInt64, part = Text.digits i.toNat := by
  obtain ⟨i, -, hPart⟩ := List.mem_flatMap.mp h
  rw [List.mem_cons, List.mem_singleton] at hPart
  exact hPart.imp_right fun hDigits => ⟨i, hDigits⟩

/-- No part that is displayed is empty. -/
theorem ne_nil_of_mem_shownParts (h : part ∈ shownParts is) : part ≠ [] := by
  rcases of_mem_shownParts h with rfl | ⟨i, rfl⟩
  · decide
  · exact Text.digits_ne_nil _

/-- There is neither a slash nor a blank in a part. -/
theorem of_mem_part (h : part ∈ shownParts is) {c : Char} (hc : c ∈ part) :
    c ≠ '/' ∧ Text.isBlank c = false := by
  rcases of_mem_shownParts h with rfl | ⟨i, rfl⟩
  · have hWord : childrenField.toList.all (fun c => c != '/' && !Text.isBlank c) = true := rfl
    have hOne := List.all_eq_true.mp hWord c hc
    rwa [Bool.and_eq_true, bne_iff_ne, Bool.not_eq_true'] at hOne
  · have hDigit : c.isDigit = true := Text.isDigit_of_mem_digits hc
    refine ⟨?_, Text.isBlank_of_isDigit hDigit⟩
    rintro rfl
    exact absurd hDigit (by decide)

/-- A path is displayed with a slash in front of each of its parts. -/
theorem toList_display_ofIndices (hNil : is ≠ []) :
    (ofIndices is).display.toList = (shownParts is).flatMap ('/' :: ·) := by
  have hSegments : ∀ js, (segmentsOf js).flatMap (fun s => ("/" ++ Segment.display s).toList) =
      (shownParts js).flatMap ('/' :: ·) := by
    intro js
    induction js with
    | nil => rfl
    | cons j js ih =>
      rw [segmentsOf, List.flatMap_cons, List.flatMap_cons, ih, shownParts_cons, List.flatMap_cons,
        List.flatMap_cons]
      simp [Segment.display, Text.decimal]
  obtain ⟨i, is, rfl⟩ := List.exists_cons_of_ne_nil hNil
  rw [display, if_neg (by simp [ofIndices, segmentsOf]), String.toList_join, List.flatMap_map]
  exact hSegments (i :: is)

/-- **What is displayed is cut into the parts that it was made of.** -/
theorem partsOf_display_ofIndices (is : List UInt64) :
    partsOf (ofIndices is).display = shownParts is := by
  by_cases hNil : is = []
  · subst hNil
    decide
  · have hBlank : ∀ c ∈ (shownParts is).flatMap ('/' :: ·), Text.isBlank c = false := by
      intro c hc
      obtain ⟨part, hPart, hMem⟩ := List.mem_flatMap.mp hc
      rcases List.mem_cons.mp hMem with rfl | hMem
      · decide
      · exact (of_mem_part hPart hMem).2
    have hSlash : ∀ part ∈ [] :: shownParts is, '/' ∉ part := by
      rw [List.forall_mem_cons]
      exact ⟨List.not_mem_nil, fun part hPart hMem => (of_mem_part hPart hMem).1 rfl⟩
    rw [partsOf, toList_display_ofIndices hNil, Text.trim_eq_self_of_forall hBlank,
      Text.flatMap_separator_cons, List.splitOn_intercalate '/' hSlash (List.cons_ne_nil _ _),
      List.filter_cons_of_neg (by simp), List.filter_eq_self]
    intro part hPart
    simpa using ne_nil_of_mem_shownParts hPart

/-- **Paths as text.** A text is a path exactly if the parts between its slashes, those
that are empty aside, are the word `children` and a numeral in turn; then it is the path
of the positions that the numerals stand for. Such a path has these positions and no other
path has, and what is displayed for it is read as the same path. -/
theorem ofText_reads_exactly :
    (∀ (s : String) (p : Path), ofText s = .ok p ↔
        ∃ is, Spells (partsOf s) is ∧ p = ofIndices is ∧ p.indices = .ok is) ∧
      (∀ is : List UInt64, (ofIndices is).indices = .ok is ∧
        ofText (ofIndices is).display = .ok (ofIndices is)) ∧
      (∀ (p : Path) (is : List UInt64), p.indices = .ok is ↔ p = ofIndices is) := by
  refine ⟨fun s p => ?_, fun is => ⟨indices_ofIndices is, ?_⟩, fun p is => indices_eq_ok_iff⟩
  · rw [ofText_eq_ok_iff]
    refine exists_congr fun is => and_congr_right fun _ => ?_
    rw [indices_eq_ok_iff, and_self]
  · rw [ofText_eq_ok_iff, partsOf_display_ofIndices]
    exact ⟨is, spells_shownParts is, rfl⟩

/-- Slashes may be left out or repeated, and numerals need not be as they are displayed. -/
example : ofText " children/+07//children/2 " = .ok (ofIndices [7, 2]) := by decide +kernel

end Path

end Spintax
