import Spintax.Proofs.Depth
import Spintax.Proofs.OnePass

/-!
# Spintax — a limit that is deep enough

Two readings of one text with different limits go different ways: where the smaller
limit is used up, a run is kept as text without a look at what is in it, and with the
larger limit the same run is cut and searched. They need not be compared with each
other. If nothing is too deep, the tree is that of the one pass and the reports are
what matching leaves over, and neither the one pass nor matching knows of a limit.

* `Token.Fits.of_le` — tokens that fit within a limit fit within a larger one;
* `diagnostics_ofText_eq_matching` — the reports of a text without the limit in them;
* `ofText_of_limit_le` — a larger limit changes nothing.
-/

namespace Spintax

/-- Tokens that fit within a limit fit within a larger one. -/
theorem Token.Fits.of_le {limit limit' level : Nat} {ts : List Token}
    (h : Fits limit level ts) (hLe : limit ≤ limit') : Fits limit' level ts := by
  induction ts generalizing level with
  | nil => trivial
  | cons t ts ih =>
    rw [fits_cons] at h ⊢
    exact ⟨fun hBrace => Nat.lt_of_lt_of_le (h.1 hBrace) hLe, ih h.2⟩

/-- What is not too deep for a limit is not too deep for a larger one. -/
theorem deep_of_limit_le {limit limit' : Nat} {s : List Char} (hLe : limit ≤ limit')
    (hDeep : ∀ d ∈ (Reading.ofText limit s).diagnostics, d.isNestingTooDeep = false) :
    ∀ d ∈ (Reading.ofText limit' s).diagnostics, d.isNestingTooDeep = false :=
  deep_iff_fits.mpr ((deep_iff_fits.mp hDeep).of_le hLe)

/-- **Where nothing is too deep, the reports do not depend on the limit**: they are
what matching leaves over. A limit of zero is left out, for then no brace is looked
at, not even one that closes nothing. -/
theorem diagnostics_ofText_eq_matching {limit : Nat} {s : List Char} (hLimit : 1 ≤ limit)
    (hDeep : ∀ d ∈ (Reading.ofText limit s).diagnostics, d.isNestingTooDeep = false) :
    (Reading.ofText limit s).diagnostics =
      (Matching.ofLexemes (Lexeme.ofText (Text.normalize s))).diagnostics
        (Text.byteLength (Text.normalize s)) := by
  have hTrim := Lexeme.trimEnd_ofText (Text.endsBlank_normalize s)
  have hReports := reportsOf_eq_diagnostics limit (Lexeme.ofText (Text.normalize s)) []
    (Lexeme.endsAt_ofText _) hTrim hDeep fun hZero => absurd hZero (Nat.ne_of_gt hLimit)
  exact hReports.symm

/-- **A larger limit changes nothing once a limit is deep enough.** The tree stays the
same, and so do the reports unless the smaller limit is zero. -/
theorem ofText_of_limit_le {limit limit' : Nat} {s : List Char} (hLe : limit ≤ limit')
    (hDeep : ∀ d ∈ (Reading.ofText limit s).diagnostics, d.isNestingTooDeep = false) :
    (∀ d ∈ (Reading.ofText limit' s).diagnostics, d.isNestingTooDeep = false) ∧
      (Reading.ofText limit' s).root = (Reading.ofText limit s).root ∧
      (1 ≤ limit →
        (Reading.ofText limit' s).diagnostics = (Reading.ofText limit s).diagnostics) := by
  have hDeep' := deep_of_limit_le hLe hDeep
  have hEnd := Text.endsBlank_normalize s
  refine ⟨hDeep', ?_, fun hLimit => ?_⟩
  · have hNodes := OnePass.complete_ofText hEnd hDeep
    have hNodes' := OnePass.complete_ofText hEnd hDeep'
    exact congrArg Node.root (hNodes'.symm.trans hNodes)
  · rw [diagnostics_ofText_eq_matching hLimit hDeep,
      diagnostics_ofText_eq_matching (Nat.le_trans hLimit hLe) hDeep']

/-- Two levels are used and a third is not, among braces that close nothing, stay
open or are text. -/
theorem ofText_of_limit_two :
    (Reading.ofText 7 ['}', '{', 'a', '{', ' ', 'b', '|', '}', '\\', '{', '{', 'c']).root =
        .root [.text ['}'], .choice [.option ['a']
          [.choice [.option ['b'] [], .option [] []], .text ['\\', '{'],
            .choice [.option ['c'] []]]]] ∧
      (Reading.ofText 7 ['}', '{', 'a', '{', ' ', 'b', '|', '}', '\\', '{', '{', 'c']).diagnostics =
        [.unmatchedClose 0, .unterminatedChoice 1, .unterminatedChoice 10] := by
  obtain ⟨-, hRoot, hReports⟩ := @ofText_of_limit_le 2 7
    ['}', '{', 'a', '{', ' ', 'b', '|', '}', '\\', '{', '{', 'c'] (by decide) (by decide +kernel)
  exact ⟨hRoot.trans (by decide +kernel), (hReports (by decide)).trans (by decide +kernel)⟩

/-- With a limit of zero a closing brace is not reported, with a limit of one it is. -/
example : (Reading.ofText 0 ['}']).diagnostics = [] ∧
    (Reading.ofText 1 ['}']).diagnostics = [.unmatchedClose 0] := by decide +kernel

end Spintax
