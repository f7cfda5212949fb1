import Spintax.Node.Canonical
import Spintax.Proofs.Thinned

/-!
# Spintax — tokens of pieces

A text laid together from pieces is cut into the tokens of the pieces, as long
as no piece but the last ends with a lone backslash, which would take the next
character along (`Token.ofText_append`). A lone backslash stands nowhere but at
the very end.

A text is *whole* when no trimming can cut a pair of it: it has no lone
backslash, and no pair with a blank. Leaving out blanks keeps it whole
(`Text.isWhole_of_thinned`).
-/

namespace Spintax

namespace Token

theorem ofText_eq_nil {s : List Char} : ofText s = [] ↔ s = [] := by
  constructor
  · intro h
    rw [← spelling_ofText s, h]
    rfl
  · rintro rfl
    rfl

/-- A character that is no backslash is a token of its own. -/
theorem ofText_cons_of_ne {c : Char} (h : c ≠ '\\') (s : List Char) :
    ofText (c :: s) = ofChar c :: ofText s := by
  rw [ofText]
  · intro hc _
    exact h hc
  · intro _ _ hc _
    exact h hc

theorem ofChar_ne_backslash (c : Char) : ofChar c ≠ .backslash := by
  unfold ofChar
  split
  · simp
  split
  · simp
  split <;> simp

/-- A backslash takes the next character along. -/
theorem ofText_pair (c : Char) (s : List Char) : ofText ('\\' :: c :: s) = .pair c :: ofText s :=
  rfl

/-- Induction on a text as it is cut. -/
@[elab_as_elim]
theorem ofText_induction {motive : List Char → Prop} (nil : motive []) (lone : motive ['\\'])
    (pair : ∀ c s, motive s → motive ('\\' :: c :: s))
    (char : ∀ c s, c ≠ '\\' → motive s → motive (c :: s)) (s : List Char) : motive s := by
  fun_induction ofText s with
  | case1 => exact nil
  | case2 => exact lone
  | case3 c s ih => exact pair c s ih
  | case4 c s hLone hPair ih =>
    refine char c s ?_ ih
    rintro rfl
    cases s with
    | nil => exact hLone rfl rfl
    | cons d s => exact hPair d s rfl rfl

/-- **Two texts are cut one by one**, unless the first one ends with a lone backslash. -/
theorem ofText_append {a : List Char} (h : .backslash ∉ ofText a) (b : List Char) :
    ofText (a ++ b) = ofText a ++ ofText b := by
  induction a using ofText_induction with
  | nil => rfl
  | lone => exact absurd (List.mem_singleton_self _) h
  | pair c s ih =>
    rw [ofText_pair] at h
    rw [List.cons_append, List.cons_append, ofText_pair, ofText_pair,
      ih fun hMem => h (List.mem_cons_of_mem _ hMem)]
    rfl
  | char c s hc ih =>
    rw [ofText_cons_of_ne hc] at h
    rw [List.cons_append, ofText_cons_of_ne hc, ofText_cons_of_ne hc,
      ih fun hMem => h (List.mem_cons_of_mem _ hMem)]
    rfl

/-- A lone backslash has nothing after it. -/
theorem backslash_not_mem_dropLast (s : List Char) : .backslash ∉ (ofText s).dropLast := by
  induction s using ofText_induction with
  | nil => simp [ofText]
  | lone => simp [ofText]
  | pair c s ih =>
    rw [ofText_pair]
    -- the pair is the last token, or the last one lies in the rest
    by_cases hnil : ofText s = []
    · simp [hnil]
    · simp [List.dropLast_cons_of_ne_nil hnil, ih]
  | char c s hc ih =>
    rw [ofText_cons_of_ne hc]
    by_cases hnil : ofText s = []
    · simp [hnil]
    · simp [List.dropLast_cons_of_ne_nil hnil, ih, (ofChar_ne_backslash c).symm]

/-- A token of a text is cut again where its spelling stands in front. -/
theorem ofText_append_of_mem {s : List Char} {t : Token} (hMem : t ∈ ofText s)
    (hLone : t ≠ .backslash) (b : List Char) : ofText (t.spelling ++ b) = t :: ofText b := by
  induction s using ofText_induction with
  | nil => exact absurd hMem (by simp [ofText])
  | lone => exact absurd (List.mem_singleton.mp hMem) hLone
  | pair c s ih =>
    rcases List.mem_cons.mp hMem with rfl | hMem
    · rfl
    · exact ih hMem
  | char c s hc ih =>
    rw [ofText_cons_of_ne hc] at hMem
    rcases List.mem_cons.mp hMem with rfl | hMem
    · rw [spelling_ofChar]
      exact ofText_cons_of_ne hc b
    · exact ih hMem

/-- A token that stays as it is when it is trimmed. -/
def isWhole : Token → Bool
  | .plain _ => true
  | .pair c => !Text.isBlank c
  | .backslash => false
  | .opening | .closing | .bar => true

end Token

namespace Text

/-- Whether a text has no lone backslash and no pair with a blank. -/
def isWhole (s : List Char) : Bool :=
  (Token.ofText s).all Token.isWhole

/-- Leaving out blanks of a whole text leaves it whole. -/
theorem isWhole_of_thinned {s t : List Char} (h : Thinned s t) (hWhole : isWhole s = true) :
    isWhole t = true := by
  unfold isWhole at *
  induction s using Token.ofText_induction generalizing t with
  | nil =>
    cases h
    rfl
  | lone => exact absurd hWhole (by decide)
  | pair c s ih =>
    rw [Token.ofText_pair, List.all_cons, Bool.and_eq_true] at hWhole
    have hc : isBlank c = false := by simpa [Token.isWhole] using hWhole.1
    -- neither character of the pair is a blank, so both are kept
    cases h with
    | leave hBlank _ => exact absurd hBlank (by decide)
    | keep _ h =>
      cases h with
      | leave hBlank _ => exact absurd hBlank (by simp [hc])
      | keep _ h =>
        rw [Token.ofText_pair, List.all_cons, hWhole.1, ih h hWhole.2]
        rfl
  | char c s hc ih =>
    rw [Token.ofText_cons_of_ne hc, List.all_cons, Bool.and_eq_true] at hWhole
    cases h with
    | leave _ h => exact ih h hWhole.2
    | keep _ h =>
      rw [Token.ofText_cons_of_ne hc, List.all_cons, hWhole.1, ih h hWhole.2]
      rfl

theorem backslash_not_mem_of_isWhole {s : List Char} (h : isWhole s = true) :
    .backslash ∉ Token.ofText s := by
  intro hMem
  exact absurd (List.all_eq_true.mp h _ hMem) (by decide)

/-- Two whole texts make a whole text. -/
theorem isWhole_append {s t : List Char} (hs : isWhole s = true) (ht : isWhole t = true) :
    isWhole (s ++ t) = true := by
  rw [isWhole, Token.ofText_append (backslash_not_mem_of_isWhole hs), List.all_append,
    Bool.and_eq_true]
  exact ⟨hs, ht⟩

theorem isWhole_replicate (n : Nat) : isWhole (List.replicate n '}') = true := by
  induction n with
  | zero => rfl
  | succ n ih =>
    rw [List.replicate_succ, isWhole, Token.ofText_cons_of_ne (by decide), List.all_cons,
      Bool.and_eq_true]
    exact ⟨by decide, ih⟩

end Text

end Spintax
