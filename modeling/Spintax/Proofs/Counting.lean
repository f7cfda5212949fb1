import Spintax.Proofs.Legible
import Spintax.Variations.Exact

/-!
# Spintax — counts are exact up to the ceiling

Counting goes from left to right in 64-bit words and gives up at the first
partial sum or product that passes the ceiling. It never gives up too early:
every tree has a rendering (`Node.count_pos`), so no further factor and no
further summand makes a result smaller, and where a part passes the ceiling the
whole passes it as well. Nor does it give a wrong number: whatever does not pass
the ceiling fits a word.

* `capped` — a number as a word, unless it passes the ceiling;
* `Node.productWithin?_eq_capped`, `Node.sumWithin?_eq_capped` — what the two
  loops give, if counting is right for each of the nodes they go through;
* `Node.countWithin?_eq_capped` — what counting gives;
* `Node.variations_iff` — the count of a tree with any ceiling.
-/

namespace Spintax

/-! ## Numbers up to a ceiling -/

/-- A number as a word, unless it passes the ceiling. -/
def capped (ceiling : UInt64) (m : Nat) : Option UInt64 :=
  if m ≤ ceiling.toNat then some (UInt64.ofNat m) else none

section Capped

variable {c k : UInt64} {m : Nat}

theorem capped_eq_none_iff : capped c m = none ↔ c.toNat < m := by
  unfold capped
  split <;> simp <;> omega

/-- Any other number is given as the word that it is. -/
theorem capped_eq_some_iff : capped c m = some k ↔ k.toNat = m ∧ m ≤ c.toNat := by
  unfold capped
  split
  · next hLe =>
    -- up to a word nothing wraps around
    have hWord : (UInt64.ofNat m).toNat = m :=
      UInt64.toNat_ofNat_of_lt (Nat.lt_of_le_of_lt hLe c.toNat_lt_size)
    rw [Option.some_inj, ← UInt64.toNat_inj, hWord, and_iff_left hLe, eq_comm]
  · next hGt =>
    constructor
    · intro h
      exact absurd h nofun
    · rintro ⟨-, hLe⟩
      exact absurd hLe hGt

/-- What the check of a sum or a product leaves. -/
theorem withinCeiling_toWord? (c : UInt64) (m : Nat) :
    withinCeiling c (Text.toWord? m) = capped c m := by
  ext k
  show withinCeiling c (Text.toWord? m) = some k ↔ capped c m = some k
  rw [withinCeiling_toWord?_eq_some_iff, capped_eq_some_iff]
  constructor
  · rintro ⟨rfl, hLe⟩
    exact ⟨rfl, hLe⟩
  · rintro ⟨rfl, hLe⟩
    exact ⟨rfl, hLe⟩

/-- A part that passes the ceiling need not be looked at: what it is a part of
passes the ceiling as well. -/
theorem bind_capped {f : Nat → Nat} (hPart : m ≤ f m) (g : UInt64 → Option UInt64) :
    ((capped c m).bind fun k => (capped c (f k.toNat)).bind g) = (capped c (f m)).bind g := by
  cases hCapped : capped c m with
  | none =>
    have hOver := capped_eq_none_iff.mp hCapped
    have hWhole : capped c (f m) = none := capped_eq_none_iff.mpr (by omega)
    rw [hWhole]
    rfl
  | some k =>
    obtain ⟨hk, -⟩ := capped_eq_some_iff.mp hCapped
    rw [Option.bind_some, hk]

end Capped

namespace Node

/-! ## Every tree has a rendering -/

/-- A sequence has a rendering if each of its nodes has one. -/
theorem countProduct_pos {ns : List Node} (h : ∀ n ∈ ns, 0 < n.count) : 0 < countProduct ns := by
  induction ns with
  | nil => exact Nat.one_pos
  | cons n ns ih =>
    rw [List.forall_mem_cons] at h
    exact Nat.mul_pos h.1 (ih h.2)

/-- **Every tree has a rendering.** -/
theorem count_pos (n : Node) : 0 < n.count := by
  induction n using tree_induction with
  | text s => exact Nat.one_pos
  | option s ns ih => exact countProduct_pos ih
  | choice ns ih =>
    cases ns with
    | nil => exact Nat.one_pos
    | cons n ns =>
      -- the first option alone has one
      have hFirst : 0 < n.count := ih n List.mem_cons_self
      show 0 < n.count + countSum ns
      omega
  | root ns ih => exact countProduct_pos ih

/-! ## The two loops -/

section Loops

variable {c total : UInt64} {n : Node} {ns : List Node}

/-- One turn of the loop over a sequence multiplies the total by the count of a node, and
goes on unless the product passes the ceiling. -/
theorem productWithin?_cons (hn : countWithin? c n = capped c n.count) (hPos : 0 < total.toNat) :
    productWithin? c (n :: ns) total =
      (capped c (total.toNat * n.count)).bind (productWithin? c ns) := by
  have hPart : n.count ≤ total.toNat * n.count := Nat.le_mul_of_pos_left _ hPos
  rw [← bind_capped (f := (total.toNat * ·)) hPart, ← hn, productWithin?]
  cases countWithin? c n with
  | none => rfl
  | some k =>
    simp only [withinCeiling_toWord?, Option.bind_some]
    cases capped c (total.toNat * k.toNat) <;> rfl

/-- One turn of the loop over a choice adds the count of an option, and goes on unless the
sum passes the ceiling. -/
theorem sumWithin?_cons (hn : countWithin? c n = capped c n.count) :
    sumWithin? c (n :: ns) total =
      (capped c (total.toNat + n.count)).bind (sumWithin? c ns) := by
  have hPart : n.count ≤ total.toNat + n.count := Nat.le_add_left ..
  rw [← bind_capped (f := (total.toNat + ·)) hPart, ← hn, sumWithin?]
  cases countWithin? c n with
  | none => rfl
  | some k =>
    simp only [withinCeiling_toWord?, Option.bind_some]
    cases capped c (total.toNat + k.toNat) <;> rfl

/-- Counts are multiplied until a product passes the ceiling, and then the whole
product passes it. -/
theorem productWithin?_eq_capped (hAll : ∀ n ∈ ns, countWithin? c n = capped c n.count)
    (hPos : 0 < total.toNat) (hTotal : total.toNat ≤ c.toNat) :
    productWithin? c ns total = capped c (total.toNat * countProduct ns) := by
  induction ns generalizing total with
  | nil =>
    rw [productWithin?, countProduct, Nat.mul_one, eq_comm, capped_eq_some_iff]
    exact ⟨rfl, hTotal⟩
  | cons n ns ih =>
    rw [List.forall_mem_cons] at hAll
    rw [productWithin?_cons hAll.1 hPos, countProduct, ← Nat.mul_assoc]
    cases hNext : capped c (total.toNat * n.count) with
    | none =>
      have hOver := capped_eq_none_iff.mp hNext
      -- what is still to come is a factor of at least one
      have hRest : 0 < countProduct ns := countProduct_pos fun n _ => n.count_pos
      have hFactor := Nat.le_mul_of_pos_right (total.toNat * n.count) hRest
      rw [Option.bind_none, eq_comm, capped_eq_none_iff]
      omega
    | some next =>
      obtain ⟨hEq, hLe⟩ := capped_eq_some_iff.mp hNext
      have hNextPos : 0 < next.toNat := by
        rw [hEq]
        exact Nat.mul_pos hPos n.count_pos
      rw [Option.bind_some, ih hAll.2 hNextPos (hEq ▸ hLe), hEq]

/-- Counts are added until a sum passes the ceiling, and then the whole sum
passes it. -/
theorem sumWithin?_eq_capped (hAll : ∀ n ∈ ns, countWithin? c n = capped c n.count)
    (hTotal : total.toNat ≤ c.toNat) :
    sumWithin? c ns total = capped c (total.toNat + countSum ns) := by
  induction ns generalizing total with
  | nil =>
    rw [sumWithin?, countSum, Nat.add_zero, eq_comm, capped_eq_some_iff]
    exact ⟨rfl, hTotal⟩
  | cons n ns ih =>
    rw [List.forall_mem_cons] at hAll
    rw [sumWithin?_cons hAll.1, countSum, ← Nat.add_assoc]
    cases hNext : capped c (total.toNat + n.count) with
    | none =>
      have hOver := capped_eq_none_iff.mp hNext
      rw [Option.bind_none, eq_comm, capped_eq_none_iff]
      omega
    | some next =>
      obtain ⟨hEq, hLe⟩ := capped_eq_some_iff.mp hNext
      rw [Option.bind_some, ih hAll.2 (hEq ▸ hLe), hEq]

end Loops

/-! ## The count of a tree -/

/-- **Counting gives the number of renderings** if it does not pass the ceiling,
and nothing if it does. -/
theorem countWithin?_eq_capped {c : UInt64} (hc : 1 ≤ c.toNat) (n : Node) :
    countWithin? c n = capped c n.count := by
  -- the count of a text, and of a choice without options
  have hOne : some 1 = capped c 1 := by
    rw [eq_comm, capped_eq_some_iff]
    exact ⟨rfl, hc⟩
  have hSequence : ∀ ns : List Node, (∀ n ∈ ns, countWithin? c n = capped c n.count) →
      productWithin? c ns 1 = capped c (countProduct ns) := by
    intro ns hAll
    have hUnit : (1 : UInt64).toNat ≤ c.toNat := hc
    rw [productWithin?_eq_capped hAll (by decide) hUnit]
    show capped c (1 * countProduct ns) = _
    rw [Nat.one_mul]
  induction n using tree_induction with
  | text s => exact hOne
  | option s ns ih => exact hSequence ns ih
  | choice ns ih =>
    cases ns with
    | nil => exact hOne
    | cons n ns =>
      rw [countWithin?, count, sumWithin?_eq_capped ih (Nat.zero_le _)]
      show capped c (0 + countSum (n :: ns)) = _
      rw [Nat.zero_add]
  | root ns ih => exact hSequence ns ih

/-- **Counts are exact up to the ceiling**: a count is the number of renderings,
which does not pass the ceiling, and overflow says that it does. -/
theorem variations_iff (n : Node) (ceiling : UInt64) :
    (∀ k, n.variations ceiling = .finite k ↔
        k.toNat = n.count ∧ n.count ≤ max ceiling.toNat 1) ∧
      (n.variations ceiling = .overflow ↔ max ceiling.toNat 1 < n.count) := by
  have hCeiling := toNat_effectiveCeiling ceiling
  have hCount := countWithin?_eq_capped (c := effectiveCeiling ceiling) (by omega) n
  unfold variations
  rw [hCount, ← hCeiling]
  cases hCapped : capped (effectiveCeiling ceiling) n.count with
  | none =>
    have hOver := capped_eq_none_iff.mp hCapped
    simp only [reduceCtorEq, false_iff, true_iff]
    exact ⟨fun k h => by omega, hOver⟩
  | some m =>
    obtain ⟨hm, hLe⟩ := capped_eq_some_iff.mp hCapped
    simp only [VariationCount.finite.injEq, reduceCtorEq, false_iff]
    refine ⟨fun k => ?_, by omega⟩
    rw [← hm, UInt64.toNat_inj, hm, eq_comm]
    exact (and_iff_left hLe).symm

end Node

end Spintax
