import Mathlib.Init

/-!
Memory as a function from addresses, and what it becomes when a list of values
is written over it from an address on.
-/
namespace Plo
universe u
variable {α : Type u}

/-- The memory with the list written over it from `dst` on. -/
def overlay (mem : Nat → α) (dst : Nat) (data : List α) : Nat → α := fun a =>
  if dst ≤ a then data.getD (a - dst) (mem a) else mem a

variable (mem : Nat → α) (dst : Nat)

@[simp] theorem overlay_nil : overlay mem dst [] = mem := by
  funext a
  simp [overlay]

theorem overlay_of_lt (data : List α) {a : Nat} (ha : a < dst) :
    overlay mem dst data a = mem a := by
  simp only [overlay, if_neg (Nat.not_le.mpr ha)]

theorem overlay_of_ge (data : List α) {a : Nat} (ha : dst + data.length ≤ a) :
    overlay mem dst data a = mem a := by
  have hlen : data.length ≤ a - dst := by omega
  simp only [overlay, List.getD_eq_getElem?_getD, List.getElem?_eq_none hlen,
    Option.getD_none, ite_self]

theorem overlay_congr {mem mem' : Nat → α} (data : List α) {a : Nat} (h : mem a = mem' a) :
    overlay mem dst data a = overlay mem' dst data a := by
  simp only [overlay, h]

/-- Where the list is written, the memory below does not matter. -/
theorem overlay_inside {mem mem' : Nat → α} (data : List α) {a : Nat} (hlo : dst ≤ a)
    (hhi : a < dst + data.length) : overlay mem dst data a = overlay mem' dst data a := by
  have hlt : a - dst < data.length := by omega
  simp only [overlay, if_pos hlo, List.getD_eq_getElem?_getD, List.getElem?_eq_getElem hlt,
    Option.getD_some]

/-- Memories that agree outside the list are the same under it. -/
theorem overlay_eq_of_agree {mem mem' : Nat → α} {data : List α}
    (h : ∀ a, ¬(dst ≤ a ∧ a < dst + data.length) → mem a = mem' a) :
    overlay mem dst data = overlay mem' dst data := by
  funext a
  by_cases hin : dst ≤ a ∧ a < dst + data.length
  · exact overlay_inside dst data hin.1 hin.2
  · exact overlay_congr dst data (h a hin)

theorem overlay_append (xs ys : List α) :
    overlay mem dst (xs ++ ys) = overlay (overlay mem dst xs) (dst + xs.length) ys := by
  funext a
  by_cases hlo : dst + xs.length ≤ a
  · have hle : xs.length ≤ a - dst := by omega
    have hsub : a - dst - xs.length = a - (dst + xs.length) := by omega
    have hdst : dst ≤ a := by omega
    simp only [overlay, if_pos hlo, if_pos hdst, List.getD_eq_getElem?_getD,
      List.getElem?_append_right hle, List.getElem?_eq_none hle, Option.getD_none, hsub]
  · rw [overlay_of_lt _ _ _ (Nat.lt_of_not_le hlo)]
    by_cases hdst : dst ≤ a
    · have hlt : a - dst < xs.length := by omega
      simp only [overlay, if_pos hdst, List.getD_eq_getElem?_getD,
        List.getElem?_append_left hlt]
    · simp only [overlay, if_neg hdst]

theorem overlay_take_drop (data : List α) {n : Nat} (hn : n ≤ data.length) :
    overlay (overlay mem dst (data.take n)) (dst + n) (data.drop n) = overlay mem dst data := by
  have h := overlay_append mem dst (data.take n) (data.drop n)
  rw [List.length_take_of_le hn, List.take_append_drop] at h
  exact h.symm

end Plo
