import Mathlib.Data.Finset.Card
import Mathlib.Data.Finset.Range
import Mathlib.Logic.Function.Basic

/-!
How many of the numbers below a bound have a property, as the property comes to hold of
one number after the other.
-/
namespace Plo

/-- The numbers below `n` for which the property holds. -/
def tally (n : Nat) (p : Nat → Prop) [DecidablePred p] : Nat := ((Finset.range n).filter p).card

section Tally
variable {n : Nat} {p q : Nat → Prop} [DecidablePred p] [DecidablePred q]

theorem tally_le : tally n p ≤ n :=
  (Finset.card_filter_le _ _).trans_eq (Finset.card_range n)

theorem tally_congr (h : ∀ k < n, p k ↔ q k) : tally n p = tally n q :=
  congrArg Finset.card (Finset.filter_congr fun k hk => h k (Finset.mem_range.mp hk))

theorem tally_eq_zero : tally n p = 0 ↔ ∀ k < n, ¬p k := by
  rw [tally, Finset.card_eq_zero, Finset.filter_eq_empty_iff]
  simp only [Finset.mem_range]

theorem tally_eq_self : tally n p = n ↔ ∀ k < n, p k := by
  have hcard : (Finset.range n).card = n := Finset.card_range n
  rw [tally]
  constructor
  · intro h k hk
    exact Finset.card_filter_eq_iff.mp (h.trans hcard.symm) k (Finset.mem_range.mpr hk)
  · intro h
    rw [Finset.filter_true_of_mem fun k hk => h k (Finset.mem_range.mp hk), hcard]

/-- The property comes to hold of one more number. -/
theorem tally_succ {m : Nat} (hm : m < n) (hp : ¬p m) (hq : q m) (h : ∀ k ≠ m, p k ↔ q k) :
    tally n q = tally n p + 1 := by
  have hmem : m ∉ (Finset.range n).filter p := fun hmem => hp (Finset.mem_filter.mp hmem).2
  rw [tally, tally, ← Finset.card_insert_of_notMem hmem]
  congr 1
  ext k
  simp only [Finset.mem_insert, Finset.mem_filter, Finset.mem_range]
  by_cases hk : k = m
  · simp only [hk, hm, hq, true_or, and_self]
  · simp only [hk, false_or, h k hk]

end Tally

end Plo
