import Spintax.Reading

/-!
# Spintax — what cutting a run gives

Cutting looks ahead: to find where an option ends, it counts the braces inside
it. `Token.levelAfter` is one step of that count and `Lexeme.levelAfter` the
whole of it; a run on which it ends at all stays inside its option. Everything
else in the theory of readings speaks of cutting through the facts below.

* `Body.cut_induction` — what follows an opening brace is an option up to the
  end, or an option up to the closing brace, or an option, a bar and the same
  again;
* `Body.closed_of_mem_options` — every option of a closed choice is itself
  without an open brace;
* `Lexeme.run_induction`, `Lexeme.closed_induction` — the ways in which a run
  may begin.
-/

namespace Spintax

/-! ## Counting braces -/

/-- How many braces are open after a token that stands inside `level` of them.
A bar or a closing brace outside of all of them leaves the option, and there
is no count any more. -/
def Token.levelAfter (level : Nat) : Token → Option Nat
  | .opening => some (level + 1)
  | .closing => if level = 0 then none else some (level - 1)
  | .bar => if level = 0 then none else some level
  | _ => some level

namespace Token

/-- A token leaves the option exactly if it is a closing brace or a bar outside of all
braces. -/
theorem levelAfter_eq_none {level : Nat} {t : Token} :
    t.levelAfter level = none ↔ level = 0 ∧ (t = .closing ∨ t = .bar) := by
  cases t <;> simp [levelAfter]

/-- More braces around a token do not change what it does. -/
theorem levelAfter_add {m n : Nat} {t : Token} (h : t.levelAfter m = some n) (k : Nat) :
    t.levelAfter (m + k) = some (n + k) := by
  cases t <;> simp only [levelAfter] at h ⊢
  case opening =>
    obtain rfl := Option.some.inj h
    congr 1
    omega
  case closing =>
    split at h
    · exact absurd h (by simp)
    · obtain rfl := Option.some.inj h
      rw [if_neg (by omega)]
      congr 1
      omega
  case bar =>
    split at h
    · exact absurd h (by simp)
    · obtain rfl := Option.some.inj h
      rw [if_neg (by omega)]
  all_goals
    obtain rfl := Option.some.inj h
    rfl

end Token

namespace Lexeme

theorem spelling_of_token {l : Lexeme} {t : Token} (h : l.token = t) : l.spelling = t.spelling := by
  rw [spelling, h]

/-- How many braces are open after a run that starts inside `level` of them, if
it stays inside the option it stands in. -/
def levelAfter (level : Nat) (ls : List Lexeme) : Option Nat :=
  ls.foldlM (fun level l => l.token.levelAfter level) level

/-- A run inside one option in which every brace that opens is closed. -/
def Closed (ls : List Lexeme) : Prop :=
  levelAfter 0 ls = some 0

@[simp] theorem levelAfter_nil (level : Nat) : levelAfter level [] = some level := rfl

theorem levelAfter_cons (level : Nat) (l : Lexeme) (ls : List Lexeme) :
    levelAfter level (l :: ls) = (l.token.levelAfter level).bind (levelAfter · ls) := rfl

theorem levelAfter_append (level : Nat) (xs ys : List Lexeme) :
    levelAfter level (xs ++ ys) = (levelAfter level xs).bind (levelAfter · ys) := by
  simp only [levelAfter, List.foldlM_append]
  rfl

/-- More braces around a run do not change what it opens and closes. -/
theorem levelAfter_add {m n : Nat} {ls : List Lexeme} (h : levelAfter m ls = some n) (k : Nat) :
    levelAfter (m + k) ls = some (n + k) := by
  induction ls generalizing m with
  | nil =>
    obtain rfl := Option.some.inj h
    rfl
  | cons l ls ih =>
    rw [levelAfter_cons, Option.bind_eq_some_iff] at h
    obtain ⟨i, hi, hls⟩ := h
    rw [levelAfter_cons, Token.levelAfter_add hi k]
    exact ih hls

/-- Either a run stays inside its option, or there is a first bar or closing
brace at which it leaves it. -/
theorem exists_leaving (level : Nat) (ls : List Lexeme) :
    (∃ k, levelAfter level ls = some k) ∨
      ∃ o l r, ls = o ++ l :: r ∧ levelAfter level o = some 0 ∧
        (l.token = .closing ∨ l.token = .bar) := by
  induction ls generalizing level with
  | nil => exact .inl ⟨level, rfl⟩
  | cons l ls ih =>
    -- a token has no level after it only where it leaves
    cases hl : l.token.levelAfter level with
    | none =>
      obtain ⟨rfl, hTok⟩ := Token.levelAfter_eq_none.mp hl
      exact .inr ⟨[], l, ls, rfl, rfl, hTok⟩
    | some m =>
      rcases ih m with ⟨k, hk⟩ | ⟨o, l', r, rfl, ho, hTok⟩
      · exact .inl ⟨k, by rw [levelAfter_cons, hl, Option.bind_some, hk]⟩
      · refine .inr ⟨l :: o, l', r, rfl, ?_, hTok⟩
        rw [levelAfter_cons, hl, Option.bind_some, ho]

end Lexeme

/-! ## Cutting off options -/

namespace Body

open Lexeme (levelAfter Closed)

/-- A lexeme that stays inside its option comes first in the body. -/
theorem ofLexemes_cons_of_levelAfter {level m : Nat} {l : Lexeme}
    (h : l.token.levelAfter level = some m) (ls : List Lexeme) :
    ofLexemes level (l :: ls) = (ofLexemes m ls).push l := by
  obtain ⟨t, pos⟩ := l
  cases t
  case closing =>
    cases level with
    | zero => exact absurd h (by simp [Token.levelAfter])
    | succ level =>
      obtain rfl : level = m := Option.some.inj h
      rfl
  case bar =>
    cases level with
    | zero => exact absurd h (by simp [Token.levelAfter])
    | succ level =>
      obtain rfl : level + 1 = m := Option.some.inj h
      rfl
  all_goals
    obtain rfl := Option.some.inj h
    rfl

/-- A run that stays inside its option comes first in the body, all of it in the first
option. -/
theorem ofLexemes_append {level m : Nat} {o : List Lexeme} (h : levelAfter level o = some m)
    (ls : List Lexeme) :
    ofLexemes level (o ++ ls) = { ofLexemes m ls with first := o ++ (ofLexemes m ls).first } := by
  induction o generalizing level with
  | nil =>
    obtain rfl := Option.some.inj h
    rfl
  | cons l o ih =>
    rw [Lexeme.levelAfter_cons, Option.bind_eq_some_iff] at h
    obtain ⟨i, hi, ho⟩ := h
    rw [List.cons_append, ofLexemes_cons_of_levelAfter hi, ih ho]
    rfl

/-- A run that stays inside its option is that option. -/
theorem ofLexemes_of_levelAfter {level k : Nat} {o : List Lexeme}
    (h : levelAfter level o = some k) : ofLexemes level o = ⟨o, [], none⟩ := by
  have hcut := ofLexemes_append h []
  rw [List.append_nil] at hcut
  rw [hcut, ofLexemes, List.append_nil]

/-- A closing brace outside of all braces ends the choice. -/
theorem ofLexemes_append_closing {level : Nat} {o : List Lexeme} {l : Lexeme}
    (h : levelAfter level o = some 0) (hTok : l.token = .closing) (r : List Lexeme) :
    ofLexemes level (o ++ l :: r) = ⟨o, [], some r⟩ := by
  have hcut : ofLexemes 0 (l :: r) = ⟨[], [], some r⟩ := by
    obtain ⟨t, pos⟩ := l
    subst hTok
    rfl
  rw [ofLexemes_append h, hcut, List.append_nil]

/-- A bar outside of all braces ends the option. -/
theorem ofLexemes_append_bar {level : Nat} {o : List Lexeme} {l : Lexeme}
    (h : levelAfter level o = some 0) (hTok : l.token = .bar) (r : List Lexeme) :
    ofLexemes level (o ++ l :: r) = ⟨o, (ofLexemes 0 r).options, (ofLexemes 0 r).rest?⟩ := by
  -- the bar itself belongs to no option
  have hcut : ofLexemes 0 (l :: r) = (ofLexemes 0 r).pushOption := by
    obtain ⟨t, pos⟩ := l
    subst hTok
    rfl
  rw [ofLexemes_append h, hcut]
  simp [pushOption, options]

/-- Induction on the options that cutting finds, one after the other. -/
@[elab_as_elim]
theorem cut_induction {motive : List Lexeme → Body → Prop}
    (last : ∀ o k, levelAfter 0 o = some k → motive o ⟨o, [], none⟩)
    (close : ∀ o l r, Closed o → l.token = .closing → motive (o ++ l :: r) ⟨o, [], some r⟩)
    (next : ∀ o l r, Closed o → l.token = .bar → motive r (ofLexemes 0 r) →
      motive (o ++ l :: r) ⟨o, (ofLexemes 0 r).options, (ofLexemes 0 r).rest?⟩)
    (ls : List Lexeme) : motive ls (ofLexemes 0 ls) := by
  induction hn : ls.length using Nat.strongRecOn generalizing ls with
  | _ n ih =>
    -- the first option is what comes before the run leaves it, if it does
    rcases Lexeme.exists_leaving 0 ls with ⟨k, hk⟩ | ⟨o, l, r, rfl, ho, hTok | hTok⟩
    · rw [ofLexemes_of_levelAfter hk]
      exact last ls k hk
    · rw [ofLexemes_append_closing ho hTok]
      exact close o l r ho hTok
    · rw [ofLexemes_append_bar ho hTok]
      -- the other options are cut from a shorter run
      refine next o l r ho hTok (ih r.length ?_ r rfl)
      rw [← hn, List.length_append, List.length_cons]
      omega

/-- Every option of a closed choice closes the braces that it opens. -/
theorem closed_of_mem_options {ls r : List Lexeme} (h : (ofLexemes 0 ls).rest? = some r) :
    ∀ o ∈ (ofLexemes 0 ls).options, Closed o := by
  induction ls using cut_induction with
  | last o k hk => exact absurd h (by simp)
  | close o l r' ho hTok =>
    intro x hx
    obtain rfl : x = o := by simpa [options] using hx
    exact ho
  | next o l r' ho hTok ih =>
    intro x hx
    rcases List.mem_cons.mp hx with rfl | hx
    · exact ho
    · exact ih h x hx

/-- What follows a closed choice starts at the level of the choice itself. -/
theorem levelAfter_of_rest {ls r : List Lexeme} (h : (ofLexemes 0 ls).rest? = some r)
    (level : Nat) : levelAfter (level + 1) ls = levelAfter level r := by
  induction ls using cut_induction with
  | last o k hk => exact absurd h (by simp)
  | close o l r' ho hTok =>
    -- the option gives back the level at which it starts, and the brace goes one down
    obtain rfl := Option.some.inj h
    have ho' := Lexeme.levelAfter_add ho (level + 1)
    rw [Nat.zero_add] at ho'
    rw [Lexeme.levelAfter_append, ho', Option.bind_some, Lexeme.levelAfter_cons, hTok]
    rfl
  | next o l r' ho hTok ih =>
    have ho' := Lexeme.levelAfter_add ho (level + 1)
    rw [Nat.zero_add] at ho'
    rw [Lexeme.levelAfter_append, ho', Option.bind_some, Lexeme.levelAfter_cons, hTok]
    exact ih h

/-- A brace that is not closed stays open up to the end. -/
theorem levelAfter_of_rest_eq_none {ls : List Lexeme} (h : (ofLexemes 0 ls).rest? = none)
    (level : Nat) : ∃ k, levelAfter (level + 1) ls = some (k + 1) := by
  induction ls using cut_induction with
  | last o k hk =>
    -- nothing of the option leaves it, so nothing closes the brace in front
    refine ⟨k + level, ?_⟩
    have ho' := Lexeme.levelAfter_add hk (level + 1)
    rw [Nat.zero_add] at ho'
    rw [ho']
    rfl
  | close o l r' ho hTok => exact absurd h (by simp)
  | next o l r' ho hTok ih =>
    obtain ⟨k, hk⟩ := ih h
    refine ⟨k, ?_⟩
    have ho' := Lexeme.levelAfter_add ho (level + 1)
    rw [Nat.zero_add] at ho'
    rw [Lexeme.levelAfter_append, ho', Option.bind_some, Lexeme.levelAfter_cons, hTok]
    exact hk

/-- The runs of the options are parts of the run they were cut from. -/
theorem infix_of_mem_options {ls o : List Lexeme} (h : o ∈ (ofLexemes 0 ls).options) :
    o <:+: ls := by
  induction ls using cut_induction with
  | last x k hk =>
    obtain rfl : o = x := by simpa [options] using h
    exact List.infix_rfl
  | close x l r hx hTok =>
    obtain rfl : o = x := by simpa [options] using h
    exact (List.prefix_append _ _).isInfix
  | next x l r hx hTok ih =>
    rcases List.mem_cons.mp h with rfl | h
    · exact (List.prefix_append _ _).isInfix
    · -- past the option and its bar
      exact ((ih h).trans (List.suffix_cons l r).isInfix).trans
        (List.suffix_append x _).isInfix

/-- What comes after a choice is the end of the run. -/
theorem suffix_of_rest {ls r : List Lexeme} (h : (ofLexemes 0 ls).rest? = some r) : r <:+ ls := by
  induction ls using cut_induction with
  | last o k hk => exact absurd h (by simp)
  | close o l r' ho hTok =>
    obtain rfl := Option.some.inj h
    exact (List.suffix_cons l r').trans (List.suffix_append o _)
  | next o l r' ho hTok ih =>
    exact ((ih h).trans (List.suffix_cons l r')).trans (List.suffix_append o _)

theorem suffix_cons_of_rest {ls r : List Lexeme} (h : (ofLexemes 0 ls).rest? = some r)
    (l : Lexeme) : r <:+ l :: ls :=
  (suffix_of_rest h).trans (List.suffix_cons l ls)

/-- A choice that is closed has at least its closing brace in it. -/
theorem ne_nil_of_rest {ls r : List Lexeme} (h : (ofLexemes 0 ls).rest? = some r) : ls ≠ [] := by
  rintro rfl
  exact absurd h (by simp [ofLexemes])

/-- Of the options of a choice that is not closed, only the last can hold a
brace that stays open; it reaches to the end. -/
theorem exists_last {ls : List Lexeme} (h : (ofLexemes 0 ls).rest? = none) :
    ∃ init last, (ofLexemes 0 ls).options = init ++ [last] ∧ (∀ o ∈ init, Closed o) ∧
      (∃ k, levelAfter 0 last = some k) ∧ last <:+ ls := by
  induction ls using cut_induction with
  | last o k hk => exact ⟨[], o, rfl, by simp, ⟨k, hk⟩, List.suffix_refl o⟩
  | close o l r' ho hTok => exact absurd h (by simp)
  | next o l r' ho hTok ih =>
    obtain ⟨init, last, hOptions, hInit, hLast, hSuffix⟩ := ih h
    -- an option with a bar after it is closed, so it is not the last
    refine ⟨o :: init, last, by rw [options, hOptions, List.cons_append], ?_, hLast,
      (hSuffix.trans (List.suffix_cons l r')).trans (List.suffix_append o _)⟩
    intro x hx
    rcases List.mem_cons.mp hx with rfl | hx
    · exact ho
    · exact hInit x hx

end Body

/-! ## Items -/

namespace Item

theorem ofLexemes_nil : ofLexemes [] = [] := by
  rw [ofLexemes]

theorem ofLexemes_cons_of_ne_opening {l : Lexeme} (h : l.token ≠ .opening) (ls : List Lexeme) :
    ofLexemes (l :: ls) = .literal l :: ofLexemes ls := by
  rw [ofLexemes, if_neg (fun hc => h hc.1)]

/-- The only lexeme of a run is a literal, even if it is an opening brace. -/
theorem ofLexemes_singleton (l : Lexeme) : ofLexemes [l] = [.literal l] := by
  rw [ofLexemes, if_neg (fun hc => hc.2 rfl), ofLexemes_nil]

/-- A brace that is closed opens a choice, and the run goes on after it. -/
theorem ofLexemes_closed {l : Lexeme} {ls r : List Lexeme} (hTok : l.token = .opening)
    (h : (Body.ofLexemes 0 ls).rest? = some r) :
    ofLexemes (l :: ls) = .choice l.pos (Body.ofLexemes 0 ls).options true :: ofLexemes r := by
  rw [ofLexemes, if_pos ⟨hTok, Body.ne_nil_of_rest h⟩, Body.rest, h]
  rfl

/-- A brace that is not closed opens a choice that reaches up to the end. -/
theorem ofLexemes_open {l : Lexeme} {ls : List Lexeme} (hTok : l.token = .opening) (hne : ls ≠ [])
    (h : (Body.ofLexemes 0 ls).rest? = none) :
    ofLexemes (l :: ls) = [.choice l.pos (Body.ofLexemes 0 ls).options false] := by
  rw [ofLexemes, if_pos ⟨hTok, hne⟩, Body.rest, h]
  simp [ofLexemes_nil]

end Item

namespace Lexeme

/-- Induction on a run: lexemes that stand for themselves, a brace at the very
end, choices that are closed, and a choice that is not. -/
@[elab_as_elim]
theorem run_induction {motive : List Lexeme → Prop} (nil : motive [])
    (literal : ∀ l ls, l.token ≠ .opening → motive ls → motive (l :: ls))
    (stray : ∀ l, l.token = .opening → motive [l])
    (closed : ∀ l ls r, l.token = .opening → (Body.ofLexemes 0 ls).rest? = some r → motive r →
      motive (l :: ls))
    (unclosed : ∀ l ls, l.token = .opening → ls ≠ [] → (Body.ofLexemes 0 ls).rest? = none →
      motive (l :: ls))
    (ls : List Lexeme) : motive ls := by
  induction hn : ls.length using Nat.strongRecOn generalizing ls with
  | _ n ih =>
    cases ls with
    | nil => exact nil
    | cons l ls =>
      rw [List.length_cons] at hn
      -- a brace that opens takes its whole choice along, hence the induction on length
      by_cases hTok : l.token = .opening
      · by_cases hnil : ls = []
        · rw [hnil]
          exact stray l hTok
        · cases hr : (Body.ofLexemes 0 ls).rest? with
          | none => exact unclosed l ls hTok hnil hr
          | some r =>
            have hlen := Body.length_rest_ofLexemes 0 ls
            rw [Body.rest, hr, Option.getD_some] at hlen
            exact closed l ls r hTok hr (ih r.length (by omega) r rfl)
      · exact literal l ls hTok (ih ls.length (by omega) ls rfl)

/-- A lexeme that opens nothing and stays inside its option has no part in the
count. -/
theorem levelAfter_of_literal {l : Lexeme} {ls : List Lexeme} {k : Nat}
    (hTok : l.token ≠ .opening) (h : levelAfter 0 (l :: ls) = some k) :
    l.token ≠ .closing ∧ l.token ≠ .bar ∧ levelAfter 0 ls = some k := by
  rw [levelAfter_cons] at h
  cases ht : l.token with
  | opening => exact absurd ht hTok
  | closing => exact absurd h (by simp [ht, Token.levelAfter])
  | bar => exact absurd h (by simp [ht, Token.levelAfter])
  | _ =>
    rw [ht] at h
    exact ⟨by simp, by simp, h⟩

/-- Nor has a choice that is closed. -/
theorem levelAfter_of_choice {l : Lexeme} {ls r : List Lexeme} {k : Nat}
    (hTok : l.token = .opening) (hr : (Body.ofLexemes 0 ls).rest? = some r)
    (h : levelAfter 0 (l :: ls) = some k) : levelAfter 0 r = some k := by
  rw [levelAfter_cons, hTok] at h
  exact (Body.levelAfter_of_rest hr 0).symm.trans h

/-- In a closed run no brace is left open. -/
theorem Closed.exists_rest {l : Lexeme} {ls : List Lexeme} (h : Closed (l :: ls))
    (hTok : l.token = .opening) : ∃ r, (Body.ofLexemes 0 ls).rest? = some r := by
  rw [Closed, levelAfter_cons, hTok] at h
  cases hr : (Body.ofLexemes 0 ls).rest? with
  | some r => exact ⟨r, rfl⟩
  | none =>
    -- one brace at least would be open at the end
    obtain ⟨k, hk⟩ := Body.levelAfter_of_rest_eq_none hr 0
    exact absurd (hk.symm.trans h) (by simp)

/-- Induction on a closed run: lexemes that stand for themselves, and choices
that are closed. -/
@[elab_as_elim]
theorem closed_induction {motive : (ls : List Lexeme) → Closed ls → Prop}
    (nil : motive [] rfl)
    (literal : ∀ l ls (h : Closed (l :: ls)) (hRest : Closed ls), l.token ≠ .opening →
      l.token ≠ .closing → l.token ≠ .bar → motive ls hRest → motive (l :: ls) h)
    (choice : ∀ l ls r (h : Closed (l :: ls)) (hRest : Closed r), l.token = .opening →
      (Body.ofLexemes 0 ls).rest? = some r → motive r hRest → motive (l :: ls) h)
    (ls : List Lexeme) (h : Closed ls) : motive ls h := by
  induction ls using run_induction with
  | nil => exact nil
  | literal l ls hTok ih =>
    obtain ⟨hc, hb, hRest⟩ := levelAfter_of_literal hTok h
    exact literal l ls h hRest hTok hc hb (ih hRest)
  | stray l hTok =>
    obtain ⟨r, hr⟩ := h.exists_rest hTok
    exact absurd rfl (Body.ne_nil_of_rest hr)
  | closed l ls r hTok hr ih =>
    exact choice l ls r h (levelAfter_of_choice hTok hr h) hTok hr (ih _)
  | unclosed l ls hTok hne hr =>
    obtain ⟨r, hr'⟩ := h.exists_rest hTok
    exact absurd (hr.symm.trans hr') (by simp)

end Lexeme

end Spintax
