import Mathlib.Data.List.DropRight
import Mathlib.Data.List.TakeWhile
import Spintax.Node.Canonical

/-!
# Spintax — normal texts

A normal text is one line without a blank at either end, and a text of that
kind is its own normal form. What carries this is that trimming and folding may
change places (`normalize_eq_trim_foldBreaks`): line breaks are blank, so an end
that is trimmed loses its breaks whole, and folding makes a blank of a break and
leaves every other character alone. So a normal form is one line because it was
folded, and has no blank at its ends because it was trimmed.
-/

namespace Spintax.Text

/-! ## Ends of a text -/

theorem startsBlank_append {s : List Char} (h : s ≠ []) (t : List Char) :
    startsBlank (s ++ t) = startsBlank s := by
  obtain ⟨c, s, rfl⟩ := List.exists_cons_of_ne_nil h
  rfl

theorem endsBlank_append (s : List Char) {t : List Char} (h : t ≠ []) :
    endsBlank (s ++ t) = endsBlank t := by
  rw [endsBlank, endsBlank, List.getLast?_append, List.getLast?_eq_some_getLast h,
    Option.some_or]

/-- Trimming at the end drops the blanks that the reversed text begins with. -/
theorem trimEnd_eq_rdropWhile (s : List Char) : trimEnd s = s.rdropWhile isBlank := rfl

/-- The end of a text is trimmed unless it is no blank. -/
theorem trimEnd_eq_self_iff {s : List Char} : trimEnd s = s ↔ endsBlank s = false := by
  rw [trimEnd_eq_rdropWhile, List.rdropWhile_eq_self_iff]
  rcases List.eq_nil_or_concat' s with rfl | ⟨xs, c, rfl⟩
  · simp [endsBlank]
  · simp [endsBlank]

/-- Nothing is trimmed from the start exactly if the text does not start with a blank. -/
theorem trimStart_eq_self_iff {s : List Char} : trimStart s = s ↔ startsBlank s = false := by
  cases s with
  | nil => simp [trimStart, startsBlank]
  | cons c s =>
    cases hc : isBlank c with
    | true =>
      rw [trimStart_cons_of_isBlank hc]
      constructor
      · intro h
        have hLe : (trimStart s).length ≤ s.length := (List.dropWhile_suffix _).length_le
        rw [h, List.length_cons] at hLe
        omega
      · simp [startsBlank, hc]
    | false =>
      rw [trimStart_cons_of_not_isBlank hc]
      simp [startsBlank, hc]

/-- After trimming the start no blank is left there. -/
theorem startsBlank_trimStart (s : List Char) : startsBlank (trimStart s) = false := by
  induction s with
  | nil => rfl
  | cons c s ih =>
    cases hc : isBlank c with
    | true => rwa [trimStart_cons_of_isBlank hc]
    | false =>
      rw [trimStart_cons_of_not_isBlank hc]
      simp [startsBlank, hc]

/-- After trimming the end no blank is left there. -/
theorem endsBlank_trimEnd (s : List Char) : endsBlank (trimEnd s) = false := by
  have h := startsBlank_trimStart s.reverse
  rw [startsBlank, ← List.getLast?_reverse] at h
  exact h

/-- Trimming at the end leaves the beginning. -/
theorem trimEnd_prefix (s : List Char) : trimEnd s <+: s :=
  List.rdropWhile_prefix isBlank s

/-- Trimming the end leaves the start alone. -/
theorem startsBlank_trimEnd {s : List Char} (h : startsBlank s = false) :
    startsBlank (trimEnd s) = false := by
  obtain ⟨t, ht⟩ := trimEnd_prefix s
  cases hTrim : trimEnd s with
  | nil => rfl
  | cons c cs =>
    rw [hTrim] at ht
    rw [← ht] at h
    exact h

theorem startsBlank_trim (s : List Char) : startsBlank (trim s) = false :=
  startsBlank_trimEnd (startsBlank_trimStart s)

theorem endsBlank_trim (s : List Char) : endsBlank (trim s) = false :=
  endsBlank_trimEnd _

theorem trim_eq_self {s : List Char} (hStart : startsBlank s = false) (hEnd : endsBlank s = false) :
    trim s = s := by
  rw [trim, trimStart_eq_self_iff.mpr hStart, trimEnd_eq_self_iff.mpr hEnd]

/-! ## Texts of blanks -/

theorem allBlank_iff_trimStart {s : List Char} : allBlank s = true ↔ trimStart s = [] := by
  rw [allBlank, List.all_eq_true, trimStart, List.dropWhile_eq_nil_iff]

theorem allBlank_iff_trimEnd {s : List Char} : allBlank s = true ↔ trimEnd s = [] := by
  rw [trimEnd_eq_rdropWhile, List.rdropWhile_eq_nil_iff, allBlank, List.all_eq_true]

/-- A text that begins with no blank is not all blank. -/
theorem not_allBlank_of_startsBlank {s : List Char} (hs : s ≠ [])
    (h : startsBlank s = false) : allBlank s = false := by
  rw [Bool.eq_false_iff]
  intro hAll
  rw [allBlank_iff_trimStart, trimStart_eq_self_iff.mpr h] at hAll
  exact hs hAll

/-- A text that ends with another character is not all blank. -/
theorem not_allBlank_of_endsBlank {s : List Char} (hs : s ≠ [])
    (h : endsBlank s = false) : allBlank s = false := by
  rw [Bool.eq_false_iff]
  intro hAll
  rw [allBlank_iff_trimEnd, trimEnd_eq_self_iff.mpr h] at hAll
  exact hs hAll

/-! ## Line breaks -/

theorem isBlank_of_break {c : Char} (h : c = '\r' ∨ c = '\n') : isBlank c = true := by
  rcases h with rfl | rfl <;> decide

theorem foldBreaks_eq_nil {s : List Char} : foldBreaks s = [] ↔ s = [] := by
  unfold foldBreaks
  split <;> simp

/-- Folding makes blanks of blanks only. -/
theorem isBlank_fold (c : Char) :
    isBlank (if c = '\r' ∨ c = '\n' then ' ' else c) = isBlank c := by
  split
  · next h =>
    rw [isBlank_of_break h]
    rfl
  · rfl

/-- Line breaks can be folded before or after the start is trimmed. -/
theorem foldBreaks_trimStart (s : List Char) :
    foldBreaks (trimStart s) = trimStart (foldBreaks s) := by
  fun_induction foldBreaks s with
  | case1 rest ih =>
    -- both characters of the pair are trimmed, and so is the space
    rw [trimStart_cons_of_isBlank (by decide), trimStart_cons_of_isBlank (by decide),
      trimStart_cons_of_isBlank (by decide), ih]
  | case2 c rest _ ih =>
    have hFold := isBlank_fold c
    cases hc : isBlank c with
    | true =>
      rw [hc] at hFold
      rw [trimStart_cons_of_isBlank hc, trimStart_cons_of_isBlank hFold, ih]
    | false =>
      rw [hc] at hFold
      rw [trimStart_cons_of_not_isBlank hc, trimStart_cons_of_not_isBlank hFold]
      -- it is no carriage return, so no pair begins with it
      exact foldBreaks_cons fun hc' => absurd (isBlank_of_break (.inl hc')) (by simp [hc])
  | case3 => rfl

/-- Line breaks can be folded before or after the end is trimmed. -/
theorem foldBreaks_trimEnd (s : List Char) :
    foldBreaks (trimEnd s) = trimEnd (foldBreaks s) := by
  fun_induction foldBreaks s with
  | case1 rest ih =>
    by_cases hnil : trimEnd rest = []
    · have hFeed : trimEnd ('\n' :: rest) = [] := trimEnd_cons_of_eq_nil hnil '\n'
      have hFold : trimEnd (foldBreaks rest) = [] := by rw [← ih, hnil, foldBreaks_nil]
      rw [trimEnd_cons_of_eq_nil hFeed, trimEnd_cons_of_eq_nil hFold]
      rfl
    · -- something is left behind the pair, so the pair stays as a whole
      have hFeed : trimEnd ('\n' :: rest) = '\n' :: trimEnd rest := trimEnd_cons_of_ne_nil hnil _
      have hFold : trimEnd (foldBreaks rest) ≠ [] := by rwa [← ih, ne_eq, foldBreaks_eq_nil]
      rw [trimEnd_cons_of_ne_nil (by simp [hFeed]), hFeed, trimEnd_cons_of_ne_nil hFold, ← ih]
      rfl
  | case2 c rest hPair ih =>
    by_cases hnil : trimEnd rest = []
    · have hFold : trimEnd (foldBreaks rest) = [] := by rw [← ih, hnil, foldBreaks_nil]
      rw [trimEnd_cons_of_eq_nil hnil, trimEnd_cons_of_eq_nil hFold, isBlank_fold]
      cases isBlank c with
      | true => rfl
      | false => exact foldBreaks_cons (by simp)
    · have hFold : trimEnd (foldBreaks rest) ≠ [] := by rwa [← ih, ne_eq, foldBreaks_eq_nil]
      rw [trimEnd_cons_of_ne_nil hnil, trimEnd_cons_of_ne_nil hFold, ← ih]
      -- what is left of the rest begins as the rest does, so no pair comes about
      apply foldBreaks_cons
      intro hc hHead
      obtain ⟨t, ht⟩ := List.head?_eq_some_iff.mp hHead
      obtain ⟨u, hu⟩ := trimEnd_prefix rest
      rw [ht] at hu
      exact hPair (t ++ u) hc hu.symm
  | case3 => rfl

/-- When the line breaks are folded, the text is in one line. -/
theorem isOneLine_foldBreaks (s : List Char) : isOneLine (foldBreaks s) = true := by
  fun_induction foldBreaks s with
  | case1 rest ih => rw [isOneLine, List.all_cons]; exact ih
  | case2 c rest h ih =>
    rw [isOneLine, List.all_cons, Bool.and_eq_true]
    refine ⟨?_, ih⟩
    split <;> simp_all
  | case3 => rfl

theorem isOneLine_append (s t : List Char) :
    isOneLine (s ++ t) = (isOneLine s && isOneLine t) :=
  List.all_append

/-- In a text of one line there is nothing to fold. -/
theorem foldBreaks_eq_self {s : List Char} (h : isOneLine s = true) : foldBreaks s = s := by
  induction s with
  | nil => rfl
  | cons c s ih =>
    rw [isOneLine, List.all_cons, Bool.and_eq_true] at h
    rw [foldBreaks_cons_of_ne (by simp_all) (by simp_all), ih h.2]

/-! ## Normal texts -/

/-- It makes no difference whether a text is trimmed or folded first. -/
theorem normalize_eq_trim_foldBreaks (s : List Char) : normalize s = trim (foldBreaks s) := by
  rw [normalize, trim, trim, foldBreaks_trimEnd, foldBreaks_trimStart]

theorem startsBlank_normalize (s : List Char) : startsBlank (normalize s) = false := by
  rw [normalize_eq_trim_foldBreaks]
  exact startsBlank_trim _

theorem endsBlank_normalize (s : List Char) : endsBlank (normalize s) = false := by
  rw [normalize_eq_trim_foldBreaks]
  exact endsBlank_trim _

theorem isOneLine_normalize (s : List Char) : isOneLine (normalize s) = true :=
  isOneLine_foldBreaks _

/-- One line without blanks at its ends is its own normal form. -/
theorem normalize_eq_self {s : List Char} (hLine : isOneLine s = true)
    (hStart : startsBlank s = false) (hEnd : endsBlank s = false) : normalize s = s := by
  rw [normalize, trim_eq_self hStart hEnd, foldBreaks_eq_self hLine]

/-- **Normalizing twice is normalizing once.** -/
theorem normalize_normalize (s : List Char) : normalize (normalize s) = normalize s :=
  normalize_eq_self (isOneLine_normalize s) (startsBlank_normalize s) (endsBlank_normalize s)

end Spintax.Text
