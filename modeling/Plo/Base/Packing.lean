import Mathlib.Data.List.Sort
import Mathlib.Order.Lattice

/-!
Half-open ranges laid out in ascending order. A list of items is packed into
`[l, u)` when every item is a non-empty range, the items follow one another
without overlap, and all of them lie inside `[l, u)`. The definition recurses
over the list in the way a first-to-last search over gaps does.
-/
namespace Plo
universe u v
variable {α : Type u} {β : Type v} [LinearOrder α] (lo hi : β → α)

def Apart (a b : β) : Prop := hi a ≤ lo b ∨ hi b ≤ lo a

def Packed (u : α) : α → List β → Prop
  | l, [] => l ≤ u
  | l, b :: bs => l ≤ lo b ∧ lo b < hi b ∧ Packed u (hi b) bs

variable {lo hi} {l u : α} {bs : List β}

theorem Apart.symm {a b : β} (h : Apart lo hi a b) : Apart lo hi b a := Or.symm h

theorem Packed.le (h : Packed lo hi u l bs) : l ≤ u := by
  induction bs generalizing l with
  | nil => exact h
  | cons b bs ih => exact h.1.trans (h.2.1.le.trans (ih h.2.2))

theorem Packed.mono_right {u' : α} (h : Packed lo hi u l bs) (hu : u ≤ u') :
    Packed lo hi u' l bs := by
  induction bs generalizing l with
  | nil => exact le_trans h hu
  | cons b bs ih => exact ⟨h.1, h.2.1, ih h.2.2⟩

theorem Packed.mem {b : β} (h : Packed lo hi u l bs) (hb : b ∈ bs) :
    l ≤ lo b ∧ lo b < hi b ∧ hi b ≤ u := by
  induction bs generalizing l with
  | nil => exact absurd hb List.not_mem_nil
  | cons c bs ih =>
      cases List.mem_cons.mp hb with
      | inl heq =>
        subst heq
        exact ⟨h.1, h.2.1, h.2.2.le⟩
      | inr hb =>
        obtain ⟨hl, hlt, hu⟩ := ih h.2.2 hb
        exact ⟨h.1.trans (h.2.1.le.trans hl), hlt, hu⟩

theorem Packed.pairwise (h : Packed lo hi u l bs) :
    bs.Pairwise (fun a b => hi a ≤ lo b) := by
  induction bs generalizing l with
  | nil => exact List.Pairwise.nil
  | cons b bs ih =>
      refine List.Pairwise.cons ?_ (ih h.2.2)
      intro c hc
      exact (h.2.2.mem hc).1

/-- Insertion before the first item that starts later keeps the layout, when
the new range is inside the bounds and apart from every item. -/
theorem Packed.orderedInsert {x : β} (h : Packed lo hi u l bs)
    (hl : l ≤ lo x) (hx : lo x < hi x) (hu : hi x ≤ u)
    (hapart : ∀ b ∈ bs, Apart lo hi x b) :
    Packed lo hi u l (bs.orderedInsert (fun a b => lo a < lo b) x) := by
  induction bs generalizing l with
  | nil => exact ⟨hl, hx, hu⟩
  | cons b bs ih =>
      have hb := hapart b List.mem_cons_self
      rw [List.orderedInsert_cons]
      split_ifs with hlt
      · refine ⟨hl, hx, ?_, h.2⟩
        cases hb with
        | inl hb =>
          exact hb
        | inr hb =>
          exact absurd (h.2.1.trans_le hb) (not_lt.mpr hlt.le)
      · refine ⟨h.1, h.2.1, ih h.2.2 ?_ fun c hc => hapart c (List.mem_cons_of_mem _ hc)⟩
        cases hb with
        | inl hb =>
          exact absurd (hx.trans_le hb) hlt
        | inr hb =>
          exact hb

end Plo
