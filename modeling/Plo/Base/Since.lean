import Mathlib.Data.List.Basic

/-!
What has held since some element of a list. A property of an element may depend on the elements
before it. Where a list grows at its end, each of these statements is decided by itself for the
list before and by the new element.
-/
namespace Plo
universe u
variable {α : Type u} {p q : List α → α → Prop} {l : List α} {a : α}

/-- There is an element where `p` holds, and `q` holds at every element behind it. -/
def Since (p q : List α → α → Prop) (l : List α) : Prop :=
  ∃ l₁ a l₂, l = l₁ ++ a :: l₂ ∧ p l₁ a ∧
    ∀ l₃ b l₄, l₂ = l₃ ++ b :: l₄ → q (l₁ ++ a :: l₃) b

/-- There is an element where `p` holds. -/
def Once (p : List α → α → Prop) (l : List α) : Prop := ∃ l₁ a l₂, l = l₁ ++ a :: l₂ ∧ p l₁ a

theorem not_since_nil : ¬Since p q [] := by
  rintro ⟨l₁, a, l₂, h, -⟩
  exact absurd h.symm (List.append_ne_nil_of_right_ne_nil _ (List.cons_ne_nil _ _))

theorem since_snoc : Since p q (l ++ [a]) ↔ p l a ∨ Since p q l ∧ q l a := by
  constructor
  · rintro ⟨l₁, b, l₂, h, hp, hq⟩
    rcases List.eq_nil_or_concat l₂ with rfl | ⟨l₃, c, rfl⟩
    · obtain ⟨rfl, hlast⟩ := List.append_inj' h rfl
      cases hlast
      exact Or.inl hp
    · have h' : l ++ [a] = (l₁ ++ b :: l₃) ++ [c] := by
        rw [h, List.concat_eq_append, List.append_assoc, List.cons_append]
      obtain ⟨rfl, hlast⟩ := List.append_inj' h' rfl
      cases hlast
      refine Or.inr ⟨⟨l₁, b, l₃, rfl, hp, ?_⟩, ?_⟩
      · intro l₄ d l₅ hl₃
        refine hq l₄ d (l₅ ++ [a]) ?_
        rw [hl₃, List.concat_eq_append, List.append_assoc, List.cons_append]
      · exact hq l₃ a [] (List.concat_eq_append)
  · rintro (hp | ⟨⟨l₁, b, l₂, rfl, hp, hq⟩, hlast⟩)
    · exact ⟨l, a, [], rfl, hp, fun l₃ b l₄ h =>
        absurd h.symm (List.append_ne_nil_of_right_ne_nil _ (List.cons_ne_nil _ _))⟩
    · refine ⟨l₁, b, l₂ ++ [a], by rw [List.append_assoc, List.cons_append], hp, ?_⟩
      intro l₃ c l₄ h
      rcases List.eq_nil_or_concat l₄ with rfl | ⟨l₅, d, rfl⟩
      · obtain ⟨rfl, heq⟩ := List.append_inj' h rfl
        cases heq
        exact hlast
      · have h' : l₂ ++ [a] = (l₃ ++ c :: l₅) ++ [d] := by
          rw [h, List.concat_eq_append, List.append_assoc, List.cons_append]
        exact hq l₃ c l₅ (List.append_inj' h' rfl).1

theorem not_once_nil : ¬Once p ([] : List α) := by
  rintro ⟨l₁, a, l₂, h, -⟩
  exact absurd h.symm (List.append_ne_nil_of_right_ne_nil _ (List.cons_ne_nil _ _))

theorem once_snoc : Once p (l ++ [a]) ↔ Once p l ∨ p l a := by
  have hsince (l : List α) : Once p l ↔ Since p (fun _ _ => True) l := by
    constructor
    · rintro ⟨l₁, a, l₂, h, hp⟩
      exact ⟨l₁, a, l₂, h, hp, fun _ _ _ _ => trivial⟩
    · rintro ⟨l₁, a, l₂, h, hp, -⟩
      exact ⟨l₁, a, l₂, h, hp⟩
  rw [hsince, since_snoc, and_true, ← hsince, or_comm]

end Plo
