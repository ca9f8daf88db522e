import Plo.Base.Overlay

/-!
Memory as a function from addresses, with a buffer of a fixed size put in at an
address. A cache that holds one piece of a memory stands for the memory with the
piece patched by its buffer.
-/
namespace Plo
universe u
variable {α : Type u}

/-- The memory with the first `sz` values of `buf` put in at `base`. -/
def patch (mem : Nat → α) (base sz : Nat) (buf : Nat → α) : Nat → α := fun a =>
  if base ≤ a ∧ a < base + sz then buf (a - base) else mem a

variable {mem buf buf' : Nat → α} {base sz a : Nat}

theorem patch_inside (h : base ≤ a ∧ a < base + sz) : patch mem base sz buf a = buf (a - base) :=
  if_pos h

theorem patch_outside (h : ¬(base ≤ a ∧ a < base + sz)) : patch mem base sz buf a = mem a :=
  if_neg h

@[simp] theorem patch_add {i : Nat} (h : i < sz) : patch mem base sz buf (base + i) = buf i := by
  rw [patch_inside ⟨Nat.le_add_right _ _, Nat.add_lt_add_left h _⟩, Nat.add_sub_cancel_left]

theorem patch_congr (h : ∀ i, i < sz → buf i = buf' i) :
    patch mem base sz buf = patch mem base sz buf' := by
  funext a
  simp only [patch]
  split
  · next hin => exact h _ (by omega)
  · rfl

/-- A buffer that holds what the memory holds changes nothing. -/
theorem patch_same (h : ∀ i, i < sz → buf i = mem (base + i)) : patch mem base sz buf = mem := by
  funext a
  simp only [patch]
  split
  · next hin => rw [h _ (by omega), Nat.add_sub_cancel' hin.1]
  · rfl

@[simp] theorem patch_patch : patch (patch mem base sz buf) base sz buf' = patch mem base sz buf' := by
  funext a
  simp only [patch]
  split <;> rfl

theorem patch_comm {base' sz' : Nat} (h : base + sz ≤ base' ∨ base' + sz' ≤ base) :
    patch (patch mem base sz buf) base' sz' buf' =
      patch (patch mem base' sz' buf') base sz buf := by
  funext a
  simp only [patch]
  by_cases hin : base ≤ a ∧ a < base + sz
  · rw [if_neg (by omega), if_pos hin, if_pos hin]
  · rw [if_neg hin, if_neg hin]

/-- Writing into the buffer writes into the memory. -/
theorem patch_overlay {ofs : Nat} (data : List α) (h : ofs + data.length ≤ sz) :
    patch mem base sz (overlay buf ofs data) =
      overlay (patch mem base sz buf) (base + ofs) data := by
  funext a
  by_cases hin : base ≤ a ∧ a < base + sz
  · have hle : ofs ≤ a - base ↔ base + ofs ≤ a := by omega
    have hsub : a - base - ofs = a - (base + ofs) := by omega
    simp only [patch, if_pos hin, overlay, hle, hsub]
  · rw [patch_outside hin]
    by_cases hlt : a < base + ofs
    · rw [overlay_of_lt _ _ _ hlt, patch_outside hin]
    · rw [overlay_of_ge _ _ _ (by omega), patch_outside hin]

/-- A piece that is taken out, changed in part and put back changes that part. -/
theorem patch_nested {ofs n : Nat} (h : ofs + n ≤ sz) (hbuf : ∀ i, i < sz → buf i = mem (base + i)) :
    patch mem base sz (patch buf ofs n buf') = patch mem (base + ofs) n buf' := by
  funext a
  by_cases hin : base ≤ a ∧ a < base + sz
  · rw [patch_inside hin]
    by_cases hpart : ofs ≤ a - base ∧ a - base < ofs + n
    · rw [patch_inside hpart, patch_inside (by omega), Nat.sub_add_eq]
    · rw [patch_outside hpart, patch_outside (by omega), hbuf _ (by omega),
        Nat.add_sub_cancel' hin.1]
  · rw [patch_outside hin, patch_outside (by omega)]

/-- Two patches side by side. -/
theorem patch_append (mem buf : Nat → α) (base n m : Nat) :
    patch (patch mem base n buf) (base + n) m (fun i => buf (n + i)) =
      patch mem base (n + m) buf := by
  funext a
  by_cases hsnd : base + n ≤ a ∧ a < base + n + m
  · have hsub : n + (a - (base + n)) = a - base := by omega
    rw [patch_inside hsnd, patch_inside (by omega), hsub]
  · rw [patch_outside hsnd]
    by_cases hfst : base ≤ a ∧ a < base + n
    · rw [patch_inside hfst, patch_inside (by omega)]
    · rw [patch_outside hfst, patch_outside (by omega)]

theorem patch_zero (mem buf : Nat → α) (base : Nat) : patch mem base 0 buf = mem := by
  funext a
  exact patch_outside (by omega)

/-- A patch by a list of the full size. -/
theorem patch_getD (data : List α) (default : α) (h : data.length = sz) :
    patch mem base sz (fun i => data.getD i default) = overlay mem base data := by
  funext a
  by_cases hin : base ≤ a ∧ a < base + sz
  · have hlt : a - base < data.length := by omega
    simp only [patch, if_pos hin, overlay, if_pos hin.1, List.getD_eq_getElem?_getD,
      List.getElem?_eq_getElem hlt, Option.getD_some]
  · rw [patch_outside hin]
    by_cases hlt : a < base
    · exact (overlay_of_lt _ _ _ hlt).symm
    · exact (overlay_of_ge _ _ _ (by omega)).symm

end Plo
