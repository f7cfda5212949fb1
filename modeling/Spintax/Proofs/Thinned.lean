import Spintax.Text.Blank

/-!
# Spintax — leaving out blanks

`Thinned s t` says that `t` is the text `s` with some of its blanks left out
and nothing else changed: no character is added, moved or repeated. It is what
trimming does to a text (`thinned_trim`), it goes through pieces laid side by
side (`Thinned.append`), and it can be followed step by step
(`Thinned.trans`).
-/

namespace Spintax.Text

/-- `t` is `s` without some of its blanks. -/
inductive Thinned : List Char → List Char → Prop where
  | nil : Thinned [] []
  | keep (c : Char) {s t : List Char} (h : Thinned s t) : Thinned (c :: s) (c :: t)
  | leave {c : Char} (hBlank : isBlank c = true) {s t : List Char} (h : Thinned s t) :
      Thinned (c :: s) t

namespace Thinned

theorem refl : ∀ s : List Char, Thinned s s
  | [] => nil
  | c :: s => keep c (refl s)

/-- What is left of two texts is left of them together. -/
theorem append {s s' t t' : List Char} (h : Thinned s t) (h' : Thinned s' t') :
    Thinned (s ++ s') (t ++ t') := by
  induction h with
  | nil => exact h'
  | keep c _ ih => exact keep c ih
  | leave hBlank _ ih => exact leave hBlank ih

/-- Blanks may be left out in two passes. -/
theorem trans {s t u : List Char} (h : Thinned s t) (h' : Thinned t u) : Thinned s u := by
  induction h generalizing u with
  | nil => exact h'
  | leave hBlank _ ih => exact leave hBlank (ih h')
  | keep c _ ih =>
    -- what was kept first may still be left out now
    cases h' with
    | keep _ h' => exact keep c (ih h')
    | leave hBlank h' => exact leave hBlank (ih h')

/-- What is left out was there, and the order stays. -/
theorem sublist {s t : List Char} (h : Thinned s t) : t.Sublist s := by
  induction h with
  | nil => exact List.Sublist.slnil
  | keep c _ ih => exact ih.cons_cons c
  | leave _ _ ih => exact ih.cons _

/-- A text of blanks may be left out as a whole. -/
theorem of_allBlank {s : List Char} (h : allBlank s = true) : Thinned s [] := by
  induction s with
  | nil => exact nil
  | cons c s ih =>
    rw [allBlank, List.all_cons, Bool.and_eq_true] at h
    exact leave h.1 (ih h.2)

/-- The characters that are no blanks are all still there. -/
theorem filter_eq {s t : List Char} (h : Thinned s t) :
    t.filter (fun c => !isBlank c) = s.filter (fun c => !isBlank c) := by
  induction h with
  | nil => rfl
  | keep c _ ih => rw [List.filter_cons, List.filter_cons, ih]
  | leave hBlank _ ih => rw [List.filter_cons_of_neg (by simp [hBlank]), ih]

theorem antisymm {s t : List Char} (h : Thinned s t) (h' : Thinned t s) : t = s :=
  h.sublist.eq_of_length_le h'.sublist.length_le

/-- Pieces that together lost nothing have lost nothing each. -/
theorem append_inj {s s' t t' : List Char} (h : Thinned s t) (h' : Thinned s' t')
    (hEq : t ++ t' = s ++ s') : t = s ∧ t' = s' := by
  have hLen := congrArg List.length hEq
  rw [List.length_append, List.length_append] at hLen
  -- no piece grows, so neither has shrunk
  have hLe := h.sublist.length_le
  have hLe' := h'.sublist.length_le
  exact List.append_inj hEq (by omega)

/-- A last character that is no blank stays last. -/
theorem exists_append {s t : List Char} {c : Char} (h : Thinned (s ++ [c]) t)
    (hBlank : isBlank c = false) : ∃ t', t = t' ++ [c] ∧ Thinned s t' := by
  induction s generalizing t with
  | nil =>
    cases h with
    | leave hBlank' _ => exact absurd hBlank' (by simp [hBlank])
    | keep _ h =>
      cases h
      exact ⟨[], rfl, nil⟩
  | cons d s ih =>
    cases h with
    | leave hBlank' h =>
      obtain ⟨t', rfl, hThin⟩ := ih h
      exact ⟨t', rfl, leave hBlank' hThin⟩
    | keep _ h =>
      obtain ⟨t', rfl, hThin⟩ := ih h
      exact ⟨d :: t', rfl, keep d hThin⟩

end Thinned

/-- Trimming the start leaves out blanks only. -/
theorem thinned_trimStart (s : List Char) : Thinned s (trimStart s) := by
  induction s with
  | nil => exact .nil
  | cons c s ih =>
    cases hc : isBlank c with
    | true =>
      rw [trimStart_cons_of_isBlank hc]
      exact .leave hc ih
    | false =>
      rw [trimStart_cons_of_not_isBlank hc]
      exact .refl _

/-- Trimming the end leaves out blanks only. -/
theorem thinned_trimEnd (s : List Char) : Thinned s (trimEnd s) := by
  induction s with
  | nil => exact .nil
  | cons c s ih =>
    rw [trimEnd_cons]
    split
    · next hnil =>
      rw [hnil] at ih
      have hc : Thinned [c] (trimEnd [c]) := by
        cases hb : isBlank c with
        | true => simpa [trimEnd, hb] using Thinned.leave hb .nil
        | false => simpa [trimEnd, hb] using Thinned.refl [c]
      simpa using hc.append ih
    · exact .keep c ih

theorem thinned_trim (s : List Char) : Thinned s (trim s) :=
  (thinned_trimStart s).trans (thinned_trimEnd _)

end Spintax.Text
