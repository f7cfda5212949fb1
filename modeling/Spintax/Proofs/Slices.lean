import Spintax.Proofs.DeepBraces
import Spintax.Proofs.LegibleRuns
import Spintax.Reading.Checked

/-!
# Spintax — runs where they stand in a text

A run of lexemes stands in a text from one byte position to another
(`Lexeme.Run`). What reading by positions asks of the text there is answered by the
run: the part between the two positions is its spelling, the byte at its start tells
its first lexeme, and the bytes of plain characters tell nothing, not even those in
the middle of a character. Parts of a run stand in the text as well, and so does
what trimming leaves of it.

* `Lexeme.run_ofText` — the lexemes of a text are a run of it;
* `Lexeme.Run.slice?_eq`, `Lexeme.Run.getElem?_bytes` — what stands there;
* `Lexeme.Run.left`, `Lexeme.Run.right`, `Lexeme.Run.trim` — parts of a run.
-/

namespace Spintax

/-! ## Bytes -/

namespace Text

theorem bytes_append (s t : List Char) : bytes (s ++ t) = bytes s ++ bytes t :=
  List.flatMap_append

/-- There are as many bytes as the length says. -/
theorem length_bytes (s : List Char) : (bytes s).length = byteLength s := by
  induction s with
  | nil => rfl
  | cons c s ih =>
    rw [bytes, List.flatMap_cons, List.length_append, String.length_utf8EncodeChar, ← bytes, ih,
      byteLength_cons]

/-- A text can be split where two parts of it meet. -/
theorem splitBytes?_append (s t : List Char) :
    splitBytes? (byteLength s) (s ++ t) = some (s, t) := by
  induction s with
  | nil => cases t <;> rfl
  | cons c s ih =>
    obtain ⟨n, hn⟩ := Nat.exists_eq_succ_of_ne_zero (Nat.ne_of_gt c.utf8Size_pos)
    have hLen : byteLength (c :: s) = (n + byteLength s) + 1 := by
      rw [byteLength_cons, hn]
      omega
    have hRest : n + byteLength s + 1 - c.utf8Size = byteLength s := by omega
    rw [hLen, List.cons_append, splitBytes?, if_pos (by omega), hRest, ih]
    rfl

/-- Between two positions stands what has that many bytes in front of it and inside. -/
theorem slice?_eq {s part : List Char} (before after : List Char) {start stop : Nat}
    (hText : s = before ++ part ++ after) (hStart : byteLength before = start)
    (hStop : stop = start + byteLength part) : slice? s start stop = some part := by
  subst hText hStart hStop
  rw [slice?, List.append_assoc, splitBytes?_append, Nat.add_sub_cancel_left]
  simp [splitBytes?_append]

/-- A byte of a part is a byte of the text. -/
theorem getElem?_bytes {before part after : List Char} {i : Nat} (h : i < byteLength part) :
    (bytes (before ++ part ++ after))[byteLength before + i]? = (bytes part)[i]? := by
  rw [bytes_append, bytes_append, List.append_assoc, ← length_bytes before,
    List.getElem?_append_right (Nat.le_add_right ..), Nat.add_sub_cancel_left,
    List.getElem?_append_left (by rwa [length_bytes])]

/-- The byte of an ASCII character is its code, and all other bytes are larger. -/
theorem toNat_of_mem_utf8EncodeChar {c : Char} {b : UInt8} (h : b ∈ String.utf8EncodeChar c) :
    b.toNat = c.toNat ∨ 0x80 ≤ b.toNat := by
  have hNat : c.val.toNat = c.toNat := rfl
  simp only [String.utf8EncodeChar, hNat] at h
  split at h
  · left
    rw [List.mem_singleton.mp h, UInt8.toNat_ofNat']
    omega
  · -- the first byte of several tells how many there are, the others have the top bit alone
    right
    repeat' split at h
    all_goals
      simp only [List.mem_cons, List.not_mem_nil, or_false] at h
      rcases h with rfl | rfl | h <;> try rcases h with rfl | rfl
      all_goals
        rw [UInt8.toNat_ofNat']
        omega

/-- Only braces, bars and backslashes have bytes that mean anything to the scan. -/
theorem ofByte_eq_other {c : Char} (hEscape : c ≠ '\\') (hPlain : Token.ofChar c = .plain c)
    {b : UInt8} (hMem : b ∈ String.utf8EncodeChar c) : Mark.ofByte b = .other := by
  have hOpening : c ≠ '{' := by rintro rfl; exact absurd hPlain (by decide)
  have hClosing : c ≠ '}' := by rintro rfl; exact absurd hPlain (by decide)
  have hBar : c ≠ '|' := by rintro rfl; exact absurd hPlain (by decide)
  -- a byte that means something is ASCII, and so it would be the character itself
  have hNe : ∀ {m : Char}, m.toNat < 0x80 → c ≠ m → b ≠ m.toUInt8 := by
    intro m hAscii hNe hEq
    have hByte : b.toNat = m.toNat := by
      rw [hEq, Char.toUInt8, UInt32.toNat_toUInt8]
      exact Nat.mod_eq_of_lt (by have : m.val.toNat = m.toNat := rfl; omega)
    rcases toNat_of_mem_utf8EncodeChar hMem with hCode | hLarge
    · exact hNe (Char.toNat_inj.mp (hCode.symm.trans hByte))
    · omega
  rw [Mark.ofByte, if_neg (hNe (by decide) hEscape), if_neg (hNe (by decide) hOpening),
    if_neg (hNe (by decide) hClosing), if_neg (hNe (by decide) hBar)]

end Text

/-! ## Runs -/

/-- A plain token is a character that has no other meaning. -/
theorem Token.ofChar_eq_of_mem_ofText {s : List Char} {c : Char} (h : .plain c ∈ ofText s) :
    c ≠ '\\' ∧ ofChar c = .plain c := by
  induction s using ofText_induction with
  | nil => simp [ofText] at h
  | lone => simp [ofText] at h
  | pair d s ih => exact ih (by simpa [ofText_pair] using h)
  | char d s hd ih =>
    rw [ofText_cons_of_ne hd] at h
    rcases List.mem_cons.mp h with hEq | hMem
    · -- the token of a character is plain only with the character itself
      have hSpell := congrArg spelling hEq
      rw [spelling_ofChar] at hSpell
      obtain rfl : c = d := List.singleton_inj.mp hSpell
      exact ⟨hd, hEq.symm⟩
    · exact ih hMem

namespace Lexeme

/-- Braces and bars are one byte long. -/
theorem byteLength_of_isStructural {l : Lexeme}
    (h : l.token = .opening ∨ l.token = .closing ∨ l.token = .bar) :
    Text.byteLength l.spelling = 1 := by
  rw [spelling]
  rcases h with hTok | hTok | hTok <;> rw [hTok] <;> rfl

/-- A run of lexemes as it stands in a text, from one byte position to another: its
spelling stands there, and it is how that is cut from left to right. -/
structure Run (s : List Char) (start : Nat) (ls : List Lexeme) (stop : Nat) : Prop where
  spelled : ∃ before after, s = before ++ spellAll ls ++ after ∧ Text.byteLength before = start
  stop_eq : stop = start + Text.byteLength (spellAll ls)
  placed : place start (ls.map token) = ls
  plain : ∀ l ∈ ls, ∀ c, l.token = .plain c → c ≠ '\\' ∧ Token.ofChar c = .plain c
  lone : .backslash ∉ (ls.map token).dropLast

/-- The lexemes of a text are a run from its start to its end. -/
theorem run_ofText (s : List Char) : Run s 0 (ofText s) (Text.byteLength s) where
  spelled := ⟨[], [], by simp [spellAll_ofText], rfl⟩
  stop_eq := by rw [spellAll_ofText, Nat.zero_add]
  placed := by rw [ofText, map_token_place]
  plain l hl c hTok := by
    have hMem := List.mem_map_of_mem (f := token) hl
    rw [ofText, map_token_place, hTok] at hMem
    exact Token.ofChar_eq_of_mem_ofText hMem
  lone := by
    rw [ofText, map_token_place]
    exact Token.backslash_not_mem_dropLast s

namespace Run

variable {s : List Char} {start stop : Nat} {l : Lexeme} {ls xs ys : List Lexeme}

/-- The slice between the two positions of a run is what the run spells. -/
theorem slice?_eq (h : Run s start ls stop) : Text.slice? s start stop = some (spellAll ls) := by
  obtain ⟨before, after, hText, hStart⟩ := h.spelled
  exact Text.slice?_eq before after hText hStart h.stop_eq

theorem le (h : Run s start ls stop) : start ≤ stop := by
  rw [h.stop_eq]
  exact Nat.le_add_right ..

/-- A run ends no later than the text. -/
theorem stop_le (h : Run s start ls stop) : stop ≤ Text.byteLength s := by
  obtain ⟨before, after, hText, hStart⟩ := h.spelled
  rw [hText, h.stop_eq, Text.byteLength_append, Text.byteLength_append, hStart]
  exact Nat.le_add_right ..

/-- The first part of a run is a run. -/
theorem left (h : Run s start (xs ++ ys) stop) :
    Run s start xs (start + Text.byteLength (spellAll xs)) where
  spelled := by
    obtain ⟨before, after, hText, hStart⟩ := h.spelled
    exact ⟨before, spellAll ys ++ after, by rw [hText, spellAll_append]; simp, hStart⟩
  stop_eq := rfl
  placed := by
    have hPlaced := h.placed
    rw [List.map_append, place_append] at hPlaced
    exact (List.append_inj hPlaced (by rw [← List.length_map token, map_token_place,
      List.length_map])).1
  plain l hl := h.plain l (List.mem_append_left ys hl)
  lone := by
    have hLone := h.lone
    rw [List.map_append] at hLone
    cases ys with
    | nil => simpa using hLone
    | cons y ys =>
      rw [List.dropLast_append_of_ne_nil (by simp), List.mem_append, not_or] at hLone
      exact fun hMem => hLone.1 (List.dropLast_subset _ hMem)

/-- The second part of a run is a run that starts where the first one ends. -/
theorem right (h : Run s start (xs ++ ys) stop) :
    Run s (start + Text.byteLength (spellAll xs)) ys stop where
  spelled := by
    obtain ⟨before, after, hText, hStart⟩ := h.spelled
    exact ⟨before ++ spellAll xs, after, by rw [hText, spellAll_append]; simp,
      by rw [Text.byteLength_append, hStart]⟩
  stop_eq := by
    rw [h.stop_eq, spellAll_append, Text.byteLength_append]
    omega
  placed := by
    have hPlaced := h.placed
    have hSpell : (xs.map token).flatMap Token.spelling = spellAll xs := List.flatMap_map ..
    rw [List.map_append, place_append, hSpell] at hPlaced
    exact (List.append_inj hPlaced (by rw [← List.length_map token, map_token_place,
      List.length_map])).2
  plain l hl := h.plain l (List.mem_append_right xs hl)
  lone := backslash_not_mem_of_suffix h.lone (List.suffix_append xs ys)

/-- A run without its first lexeme. -/
theorem tail (h : Run s start (l :: ls) stop) :
    Run s (start + Text.byteLength l.spelling) ls stop := by
  have hTail : Run s (start + Text.byteLength (spellAll [l])) ls stop := Run.right h
  rwa [spellAll, List.flatMap_singleton] at hTail

/-- A run without the brace or bar in front of it. -/
theorem tail_of_isStructural (h : Run s start (l :: ls) stop)
    (hTok : l.token = .opening ∨ l.token = .closing ∨ l.token = .bar) :
    Run s (start + 1) ls stop := by
  have hTail := h.tail
  rwa [byteLength_of_isStructural hTok] at hTail

/-- A run comes apart where so many bytes of it have passed. -/
theorem split (h : Run s start (xs ++ ys) stop) {pos : Nat}
    (hPos : pos = start + Text.byteLength (spellAll xs)) :
    Run s start xs pos ∧ Run s pos ys stop := by
  subst hPos
  exact ⟨h.left, h.right⟩

theorem pos_eq (h : Run s start (l :: ls) stop) : l.pos = start :=
  (congrArg pos (List.cons.inj h.placed).1).symm

theorem end_le (h : Run s start (l :: ls) stop) : start + Text.byteLength l.spelling ≤ stop :=
  h.tail.le

/-- Nothing follows a lone backslash. -/
theorem eq_nil_of_backslash (h : Run s start (l :: ls) stop) (hTok : l.token = .backslash) :
    ls = [] := by
  by_cases hnil : ls = []
  · exact hnil
  · have hLone := h.lone
    rw [List.map_cons, List.dropLast_cons_of_ne_nil (mt List.map_eq_nil_iff.mp hnil), hTok] at hLone
    exact absurd List.mem_cons_self hLone

/-- The bytes at the start are those of the first lexeme. -/
theorem getElem?_bytes (h : Run s start (l :: ls) stop) {i : Nat}
    (hi : i < Text.byteLength l.spelling) :
    (Text.bytes s)[start + i]? = (Text.bytes l.spelling)[i]? := by
  obtain ⟨before, after, hText, hStart⟩ := h.spelled
  have hSplit : s = before ++ l.spelling ++ (spellAll ls ++ after) := by
    rw [hText, spellAll_cons]
    simp
  rw [hSplit, ← hStart, Text.getElem?_bytes hi]

/-- What stands behind the backslash of a pair begins with its other character. -/
theorem exists_slice?_of_pair (h : Run s start (l :: ls) stop) {c : Char}
    (hTok : l.token = .pair c) :
    ∃ rest, Text.slice? s (start + 1) (Text.byteLength s) = some (c :: rest) := by
  obtain ⟨before, after, hText, hStart⟩ := h.spelled
  have hSpell : spellAll (l :: ls) = '\\' :: c :: spellAll ls := by
    rw [spellAll_cons, spelling_of_token hTok]
    rfl
  have hOne : ('\\').utf8Size = 1 := rfl
  refine ⟨spellAll ls ++ after, Text.slice?_eq (before ++ ['\\']) [] ?_ ?_ ?_⟩
  · rw [hText, hSpell]
    simp
  · rw [Text.byteLength_append, hStart]
    rfl
  · rw [hText, hSpell, ← hStart]
    simp only [Text.byteLength_append, Text.byteLength_cons]
    omega

end Run

/-! ### Trimmed runs -/

/-- Trimming takes lexemes away and moves none. -/
theorem place_trimEnd (pos : Nat) (ts : List Token) :
    place pos ((trimEnd (place pos ts)).map token) = trimEnd (place pos ts) := by
  induction ts generalizing pos with
  | nil => rfl
  | cons t ts ih =>
    rw [place]
    by_cases hnil : trimEnd (place (pos + Text.byteLength t.spelling) ts) = []
    · rw [trimEnd_cons_of_eq_nil hnil, withoutTrailingBlank]
      cases t.withoutTrailingBlank <;> rfl
    · rw [trimEnd_cons_of_ne_nil hnil, List.map_cons, place, ih]

namespace Run

variable {s : List Char} {start stop : Nat} {ls : List Lexeme}

/-- A run whose end is trimmed is a run that ends earlier. -/
theorem trimEnd (h : Run s start ls stop) :
    Run s start (trimEnd ls) (start + Text.byteLength (Text.trimEnd (spellAll ls))) where
  spelled := by
    obtain ⟨before, after, hText, hStart⟩ := h.spelled
    obtain ⟨blanks, hBlanks⟩ := Text.trimEnd_prefix (spellAll ls)
    refine ⟨before, blanks ++ after, ?_, hStart⟩
    rw [hText, spellAll_trimEnd, List.append_assoc, List.append_assoc, ← List.append_assoc _ blanks,
      hBlanks]
  stop_eq := by rw [spellAll_trimEnd]
  placed := by
    rw [← h.placed]
    exact place_trimEnd start _
  plain l hl c hTok := by
    rcases mem_trimEnd hl with hMem | ⟨hBackslash, -⟩
    · exact h.plain l hMem c hTok
    · exact absurd (hTok.symm.trans hBackslash) (by simp)
  lone := backslash_not_mem_dropLast_trimEnd h.lone

/-- A run without its first blanks is a run that starts later. -/
theorem dropBlanks (h : Run s start ls stop) :
    Run s (start + (Text.byteLength (spellAll ls) - Text.byteLength (Text.trimStart (spellAll ls))))
      (ls.dropWhile isBlank) stop := by
  have hSplit : ls.takeWhile isBlank ++ ls.dropWhile isBlank = ls := List.takeWhile_append_dropWhile
  have hLen : Text.byteLength (spellAll ls) = Text.byteLength (spellAll (ls.takeWhile isBlank)) +
      Text.byteLength (Text.trimStart (spellAll ls)) := by
    rw [← spellAll_dropWhile_isBlank, ← Text.byteLength_append, ← spellAll_append, hSplit]
  have hRight := Run.right (hSplit ▸ h)
  rwa [hLen, Nat.add_sub_cancel]

end Run

end Lexeme

namespace Text

/-- Where trimming leaves nothing, nothing but blanks are in front. -/
theorem trimStart_eq_nil {s : List Char} (h : trim s = []) : trimStart s = [] := by
  by_cases hnil : trimStart s = []
  · exact hnil
  · have hBlank := allBlank_iff_trimEnd.mpr h
    rw [not_allBlank_of_startsBlank hnil (startsBlank_trimStart s)] at hBlank
    exact absurd hBlank (by simp)

/-- The blanks in front and those at the end are counted from the same length, and
they are different ones if anything is left between them. -/
theorem byteLength_trim (s : List Char) :
    byteLength (trimStart s) ≤ byteLength s ∧ byteLength (trimEnd s) ≤ byteLength s ∧
      (trim s ≠ [] → byteLength (trimStart s) + byteLength (trimEnd s) =
        byteLength (trim s) + byteLength s) := by
  have hStart : byteLength (s.takeWhile isBlank) + byteLength (trimStart s) = byteLength s := by
    rw [← byteLength_append, trimStart, List.takeWhile_append_dropWhile]
  have hEnd : byteLength (trimEnd s) ≤ byteLength s := by
    obtain ⟨t, ht⟩ := trimEnd_prefix s
    have hLen := congrArg byteLength ht
    rw [byteLength_append] at hLen
    omega
  refine ⟨by omega, hEnd, fun hne => ?_⟩
  have hSplit : trimEnd s = s.takeWhile isBlank ++ trim s := by
    have hText : s.takeWhile isBlank ++ trimStart s = s := List.takeWhile_append_dropWhile
    have hTrim := trimEnd_append (s.takeWhile isBlank) (trimStart s)
    rwa [hText, if_neg (c := trimEnd (trimStart s) = []) hne] at hTrim
  rw [hSplit, byteLength_append]
  omega

end Text

/-! ### The first brace -/

namespace Text

/-- A brace is looked for in one text and then in the next. -/
theorem findBrace?_append (s t : List Char) :
    findBrace? (s ++ t) = (findBrace? s).or ((findBrace? t).map (byteLength s + ·)) := by
  induction s with
  | nil => simp [findBrace?]
  | cons c s ih =>
    rw [List.cons_append, findBrace?, findBrace?, ih]
    split
    · rfl
    · cases findBrace? s <;> cases findBrace? t <;> simp [Nat.add_assoc]

/-- A brace is found inside the text. -/
theorem findBrace?_le {s : List Char} {k : Nat} (h : findBrace? s = some k) :
    k ≤ byteLength s := by
  induction s generalizing k with
  | nil => simp [findBrace?] at h
  | cons c s ih =>
    rw [findBrace?] at h
    split at h
    · obtain rfl := Option.some.inj h
      exact Nat.zero_le _
    · obtain ⟨j, hj, rfl⟩ := Option.map_eq_some_iff.mp h
      exact Nat.add_le_add_left (ih hj) _

end Text

/-- The brace that is written in a lexeme stands in its spelling. -/
theorem Lexeme.Run.brace?_eq {s : List Char} {start stop : Nat} {l : Lexeme} {ls : List Lexeme}
    (h : Run s start (l :: ls) stop) :
    l.brace? = (Text.findBrace? l.spelling).map (start + ·) := by
  have hPos := h.pos_eq
  obtain ⟨t, pos⟩ := l
  subst hPos
  cases t with
  | plain c =>
    have hc : c ≠ '{' := by
      rintro rfl
      exact absurd (h.plain _ List.mem_cons_self '{' rfl).2 (by decide)
    simp [brace?, spelling, Token.spelling, Text.findBrace?, hc]
  | pair c =>
    have hOne : ('\\').utf8Size = 1 := rfl
    by_cases hc : c = '{' <;>
      simp [brace?, spelling, Token.spelling, Text.findBrace?, hc, hOne]
  | _ => rfl

/-- The first brace of a run is the first one in what stands in the text. -/
theorem Lexeme.Run.firstBrace?_eq {s : List Char} {start stop : Nat} {ls : List Lexeme}
    (h : Run s start ls stop) :
    firstBrace? ls = (Text.findBrace? (spellAll ls)).map (start + ·) := by
  induction ls generalizing start with
  | nil => rfl
  | cons l ls ih =>
    rw [firstBrace?_eq_or, ih h.tail, spellAll_cons, Text.findBrace?_append, h.brace?_eq]
    cases Text.findBrace? l.spelling <;> cases Text.findBrace? (spellAll ls) <;>
      simp [Nat.add_assoc]

namespace Lexeme.Run

variable {s : List Char} {start stop : Nat} {ls : List Lexeme}

/-- **What trimming leaves of a run stands where the two counts of blanks say.** -/
theorem trim (h : Run s start ls stop) (hne : trim ls ≠ []) :
    Run s (start + (Text.byteLength (spellAll ls) - Text.byteLength (Text.trimStart (spellAll ls))))
      (trim ls)
      (stop - (Text.byteLength (spellAll ls) - Text.byteLength (Text.trimEnd (spellAll ls)))) := by
  obtain ⟨hStart, hEnd, hBoth⟩ := Text.byteLength_trim (spellAll ls)
  have hLen := hBoth (by rwa [← spellAll_trim, Ne, spellAll_eq_nil])
  have hTrim := h.dropBlanks.trimEnd
  rw [spellAll_dropWhile_isBlank, ← Text.trim] at hTrim
  -- the end, counted from the start of the run as it is here and from its end as it is there
  have hSame : start + (Text.byteLength (spellAll ls) -
      Text.byteLength (Text.trimStart (spellAll ls))) + Text.byteLength (Text.trim (spellAll ls)) =
      stop - (Text.byteLength (spellAll ls) - Text.byteLength (Text.trimEnd (spellAll ls))) := by
    rw [h.stop_eq]
    omega
  rwa [hSame] at hTrim

end Lexeme.Run

end Spintax
