import Plo.Base.Window

/-!
Values stored to and read from cells that need not lie side by side: a map gives
the cell for each number. Storing list after list is storing them joined, and as
long as no cell is given twice what was stored is read back.
-/
namespace Plo
universe u
variable {α : Type u}

/-- The memory with the list stored, from number `l` on. -/
def scatter (place : Nat → Nat) (mem : Nat → α) (l : Nat) : List α → Nat → α
  | [] => mem
  | x :: xs => scatter place (overlay mem (place l) [x]) (l + 1) xs

/-- The `n` values from number `l` on. -/
def gather (place : Nat → Nat) (mem : Nat → α) (l n : Nat) : List α :=
  (List.range n).map fun k => mem (place (l + k))

section Scatter
variable {place : Nat → Nat} (mem : Nat → α)

theorem overlay_one (dst : Nat) (x : α) (a : Nat) :
    overlay mem dst [x] a = if a = dst then x else mem a := by
  split
  · next heq =>
    rw [heq]
    exact overlay_self mem dst x
  · next hne =>
    by_cases hlt : a < dst
    · exact overlay_of_lt _ _ _ hlt
    · exact overlay_of_ge _ _ _ (by rw [List.length_singleton]; omega)

theorem scatter_cons (l : Nat) (x : α) (xs : List α) :
    scatter place mem l (x :: xs) = scatter place (overlay mem (place l) [x]) (l + 1) xs := rfl

theorem scatter_append (l : Nat) (xs ys : List α) :
    scatter place mem l (xs ++ ys) = scatter place (scatter place mem l xs) (l + xs.length) ys := by
  induction xs generalizing mem l with
  | nil => rfl
  | cons x xs ih =>
      simp only [List.cons_append, scatter_cons, List.length_cons]
      rw [ih, Nat.add_right_comm, Nat.add_assoc l]

/-- Only the cells matter, not their numbers. -/
theorem scatter_congr {place' : Nat → Nat} {l l' : Nat} {xs : List α}
    (h : ∀ k, k < xs.length → place (l + k) = place' (l' + k)) :
    scatter place mem l xs = scatter place' mem l' xs := by
  induction xs generalizing mem l l' with
  | nil => rfl
  | cons x xs ih =>
      have hfirst := h 0 (Nat.zero_lt_succ _)
      rw [Nat.add_zero, Nat.add_zero] at hfirst
      simp only [scatter_cons]
      rw [hfirst]
      refine ih _ fun k hk => ?_
      have hnext := h (k + 1) (Nat.succ_lt_succ hk)
      rw [Nat.add_right_comm, Nat.add_assoc, hnext, Nat.add_right_comm l', Nat.add_assoc l']

theorem scatter_eq_overlay {l dst : Nat} {xs : List α}
    (h : ∀ k, k < xs.length → place (l + k) = dst + k) :
    scatter place mem l xs = overlay mem dst xs := by
  induction xs generalizing mem l dst with
  | nil => rw [overlay_nil, scatter]
  | cons x xs ih =>
      have hfirst := h 0 (Nat.zero_lt_succ _)
      rw [Nat.add_zero, Nat.add_zero] at hfirst
      rw [scatter_cons, hfirst, @ih (overlay mem dst [x]) (l + 1) (dst + 1)]
      · exact (overlay_append mem dst [x] xs).symm
      · intro k hk
        have hsum : l + 1 + k = l + (k + 1) := by omega
        rw [hsum, h (k + 1) (Nat.succ_lt_succ hk)]
        omega

theorem scatter_outside {l a : Nat} {xs : List α} (h : ∀ k, k < xs.length → place (l + k) ≠ a) :
    scatter place mem l xs a = mem a := by
  induction xs generalizing mem l with
  | nil => rfl
  | cons x xs ih =>
      have hfirst := h 0 (Nat.zero_lt_succ _)
      rw [Nat.add_zero] at hfirst
      rw [scatter_cons, ih _ fun k hk => ?_, overlay_one, if_neg hfirst.symm]
      have hnext := h (k + 1) (Nat.succ_lt_succ hk)
      rw [Nat.add_right_comm, Nat.add_assoc]
      exact hnext

/-- The last value stored in a cell is there. -/
theorem scatter_inside {l k : Nat} {xs : List α} (hk : k < xs.length)
    (hinj : ∀ j, k < j → j < xs.length → place (l + j) ≠ place (l + k)) :
    scatter place mem l xs (place (l + k)) = xs.get ⟨k, hk⟩ := by
  induction xs generalizing mem l k with
  | nil => exact absurd hk (Nat.not_lt_zero k)
  | cons x xs ih =>
      cases k with
      | zero =>
          rw [scatter_cons, scatter_outside _ fun j hj => ?_, Nat.add_zero, overlay_self]
          · rfl
          · have hne := hinj (j + 1) (Nat.zero_lt_succ j) (Nat.succ_lt_succ hj)
            rw [Nat.add_right_comm, Nat.add_assoc]
            exact hne
      | succ k =>
          have hsucc : l + (k + 1) = l + 1 + k := by omega
          rw [scatter_cons, hsucc, ih _ (Nat.lt_of_succ_lt_succ hk) fun j hj hlen => ?_]
          · rfl
          · have hne := hinj (j + 1) (Nat.succ_lt_succ hj) (Nat.succ_lt_succ hlen)
            rw [hsucc] at hne
            rw [Nat.add_right_comm, Nat.add_assoc]
            exact hne

/-- Storing the value a cell has does not change the cell. -/
theorem scatter_keep {l a : Nat} {v : α} {xs : List α} (hxs : ∀ x ∈ xs, x = v) (ha : mem a = v) :
    scatter place mem l xs a = v := by
  induction xs generalizing mem l with
  | nil => exact ha
  | cons x xs ih =>
      refine ih _ (fun y hy => hxs y (List.mem_cons_of_mem _ hy)) ?_
      rw [overlay_one, hxs x List.mem_cons_self, ha, ite_self]

/-- The first cell, when the same value is stored in all. -/
theorem scatter_first_same {l : Nat} {v : α} {xs : List α} (hxs : ∀ x ∈ xs, x = v) (hne : xs ≠ []) :
    scatter place mem l xs (place l) = v := by
  cases xs with
  | nil => exact absurd rfl hne
  | cons x xs =>
      rw [scatter_cons]
      refine scatter_keep _ (fun y hy => hxs y (List.mem_cons_of_mem _ hy)) ?_
      rw [overlay_self, hxs x List.mem_cons_self]

end Scatter

section Gather
variable {place : Nat → Nat} {mem : Nat → α}

@[simp] theorem length_gather (l n : Nat) : (gather place mem l n).length = n := by simp [gather]

theorem gather_add (l m n : Nat) :
    gather place mem l (m + n) = gather place mem l m ++ gather place mem (l + m) n := by
  simp only [gather, List.range_add, List.map_append, List.map_map, Function.comp_def,
    Nat.add_assoc]

theorem gather_congr {place' : Nat → Nat} {l l' n : Nat}
    (h : ∀ k, k < n → place (l + k) = place' (l' + k)) :
    gather place mem l n = gather place' mem l' n :=
  List.map_congr_left fun k hk => by rw [h k (List.mem_range.mp hk)]

theorem gather_eq_slice {l src n : Nat} (h : ∀ k, k < n → place (l + k) = src + k) :
    gather place mem l n = slice mem src n :=
  List.map_congr_left fun k hk => by rw [h k (List.mem_range.mp hk)]

/-- What was stored in cells that differ is read back. -/
theorem gather_scatter {l : Nat} {xs : List α}
    (hinj : ∀ j k, j < xs.length → k < xs.length → place (l + j) = place (l + k) → j = k) :
    gather place (scatter place mem l xs) l xs.length = xs := by
  refine List.ext_getElem (length_gather _ _) fun k hk hk' => ?_
  simp only [gather, List.getElem_map, List.getElem_range]
  refine scatter_inside mem hk' fun j hj hlen heq => ?_
  have hjk := hinj j k hlen hk' heq
  omega

end Gather

end Plo
