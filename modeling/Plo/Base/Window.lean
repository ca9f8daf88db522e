import Mathlib.Data.List.Range
import Mathlib.Data.Nat.ModEq
import Plo.Base.Overlay

/-!
Cells used as a ring: position `h + k` is the cell with that number modulo the
capacity. A window is what lies on the ring from a position on, and values are
stored on the ring one position after the other. Inside the capacity both are
plain slices of the memory.
-/
namespace Plo
universe u
variable {α : Type u} (cap : Nat)

/-- The `n` cells from position `h` on. -/
def window (mem : Nat → α) (h n : Nat) : List α := (List.range n).map fun k => mem ((h + k) % cap)

/-- The `n` cells from address `src` on. -/
def slice (mem : Nat → α) (src n : Nat) : List α := (List.range n).map fun k => mem (src + k)

/-- The memory with the list stored on the ring from position `t` on. -/
def ringWrite (mem : Nat → α) (t : Nat) : List α → Nat → α
  | [] => mem
  | x :: xs => ringWrite (overlay mem (t % cap) [x]) (t + 1) xs

variable {cap} (mem : Nat → α)

@[simp] theorem length_window (h n : Nat) : (window cap mem h n).length = n := by simp [window]

@[simp] theorem length_slice (src n : Nat) : (slice mem src n).length = n := by simp [slice]

theorem slice_eq_iff {mem mem' : Nat → α} {src src' n : Nat} :
    slice mem src n = slice mem' src' n ↔ ∀ k, k < n → mem (src + k) = mem' (src' + k) := by
  rw [slice, slice, List.map_inj_left]
  simp only [List.mem_range]

theorem slice_add (src m n : Nat) :
    slice mem src (m + n) = slice mem src m ++ slice mem (src + m) n := by
  simp only [slice, List.range_add, List.map_append, List.map_map, Function.comp_def,
    Nat.add_assoc]

theorem drop_slice (src : Nat) {n k : Nat} (hk : k ≤ n) :
    (slice mem src n).drop k = slice mem (src + k) (n - k) := by
  obtain ⟨m, rfl⟩ := Nat.exists_eq_add_of_le hk
  rw [slice_add, List.drop_left' (length_slice _ _ _), Nat.add_sub_cancel_left]

theorem slice_append_iff {mem mem' : Nat → α} {src src' n : Nat} {xs ys : List α} :
    slice mem src n ++ xs = slice mem' src' n ++ ys ↔
      slice mem src n = slice mem' src' n ∧ xs = ys := by
  constructor
  · intro h
    exact List.append_inj h (by rw [length_slice, length_slice])
  · intro h
    rw [h.1, h.2]

/-- What was written is there. -/
theorem slice_overlay (dst : Nat) (data : List α) :
    slice (overlay mem dst data) dst data.length = data := by
  refine List.ext_getElem (length_slice _ _ _) fun k hk hk' => ?_
  rw [length_slice] at hk
  simp only [slice, List.getElem_map, List.getElem_range, overlay, Nat.le_add_right, if_true,
    Nat.add_sub_cancel_left, List.getD_eq_getElem?_getD, List.getElem?_eq_getElem hk,
    Option.getD_some]

/-- A slice that ends with what was written. -/
theorem slice_overlay_append (src n : Nat) (data : List α) :
    slice (overlay mem (src + n) data) src (n + data.length) = slice mem src n ++ data := by
  rw [slice_add, slice_overlay]
  congr 1
  exact slice_eq_iff.mpr fun k hk => overlay_of_lt _ _ _ (by omega)

/-- A slice with what was written in it. -/
theorem slice_overlay_within {dst n : Nat} (data : List α) (h : dst + data.length ≤ n) :
    slice (overlay mem dst data) 0 n =
      slice mem 0 dst ++ data ++ slice mem (dst + data.length) (n - (dst + data.length)) := by
  have hn : n = dst + data.length + (n - (dst + data.length)) := by omega
  have hbefore := slice_overlay_append mem 0 dst data
  rw [Nat.zero_add] at hbefore
  conv_lhs => rw [hn, slice_add, hbefore, Nat.zero_add]
  rw [List.append_cancel_left_eq]
  exact slice_eq_iff.mpr fun k hk => overlay_of_ge _ _ _ (by omega)

/-- One step past the end is at most one turn of the ring. -/
theorem mod_ring {h n : Nat} (hh : h < cap) (hn : n ≤ cap) :
    (h + n) % cap = if h + n < cap then h + n else h + n - cap := by
  split
  · next hlt => exact Nat.mod_eq_of_lt hlt
  · next hge =>
    rw [Nat.mod_eq_sub_mod (Nat.le_of_not_lt hge), Nat.mod_eq_of_lt (by omega)]

theorem window_mod (h n : Nat) : window cap mem (h % cap) n = window cap mem h n := by
  simp only [window, Nat.mod_add_mod]

theorem window_add (h m n : Nat) :
    window cap mem h (m + n) = window cap mem h m ++ window cap mem (h + m) n := by
  simp only [window, List.range_add, List.map_append, List.map_map, Function.comp_def,
    Nat.add_assoc]

theorem window_eq_slice {h n : Nat} (hle : h + n ≤ cap) :
    window cap mem h n = slice mem h n := by
  refine List.map_congr_left fun k hk => ?_
  have hk := List.mem_range.mp hk
  rw [Nat.mod_eq_of_lt (by omega)]

theorem window_take (h n k : Nat) :
    (window cap mem h n).take k = window cap mem h (min k n) := by
  simp only [window, ← List.map_take, List.take_range]

theorem window_drop (h n k : Nat) :
    (window cap mem h n).drop k = window cap mem (h + k) (n - k) := by
  by_cases hk : k ≤ n
  · obtain ⟨m, rfl⟩ := Nat.exists_eq_add_of_le hk
    rw [window_add, List.drop_append_of_le_length (by simp), List.drop_of_length_le (by simp),
      List.nil_append, Nat.add_sub_cancel_left]
  · rw [List.drop_of_length_le (by simp; omega), Nat.sub_eq_zero_of_le (by omega)]
    rfl

theorem ringWrite_cons (t : Nat) (x : α) (xs : List α) :
    ringWrite cap mem t (x :: xs) = ringWrite cap (overlay mem (t % cap) [x]) (t + 1) xs := rfl

theorem ringWrite_mod (t : Nat) (xs : List α) :
    ringWrite cap mem (t % cap) xs = ringWrite cap mem t xs := by
  induction xs generalizing mem t with
  | nil => rfl
  | cons x xs ih =>
      simp only [ringWrite_cons, Nat.mod_mod]
      rw [← ih _ (t % cap + 1), Nat.mod_add_mod, ih]

theorem ringWrite_append (t : Nat) (xs ys : List α) :
    ringWrite cap mem t (xs ++ ys) = ringWrite cap (ringWrite cap mem t xs) (t + xs.length) ys := by
  induction xs generalizing mem t with
  | nil => rfl
  | cons x xs ih =>
      simp only [List.cons_append, ringWrite_cons, List.length_cons]
      rw [ih, Nat.add_right_comm, Nat.add_assoc t]

theorem ringWrite_eq_overlay {t : Nat} {xs : List α} (hle : t + xs.length ≤ cap) :
    ringWrite cap mem t xs = overlay mem t xs := by
  induction xs generalizing mem t with
  | nil => rw [overlay_nil, ringWrite]
  | cons x xs ih =>
      rw [List.length_cons] at hle
      rw [ringWrite_cons, Nat.mod_eq_of_lt (by omega), ih _ (by omega)]
      exact (overlay_append mem t [x] xs).symm

theorem ringWrite_outside {t a : Nat} {xs : List α} (h : ∀ k, k < xs.length → a ≠ (t + k) % cap) :
    ringWrite cap mem t xs a = mem a := by
  induction xs generalizing mem t with
  | nil => rfl
  | cons x xs ih =>
      have hne : a ≠ t % cap := h 0 (Nat.zero_lt_succ _)
      rw [ringWrite_cons, ih]
      · by_cases hlt : a < t % cap
        · exact overlay_of_lt _ _ _ hlt
        · exact overlay_of_ge _ _ _ (by simp; omega)
      · intro k hk
        rw [Nat.add_assoc, Nat.add_comm 1]
        exact h (k + 1) (Nat.succ_lt_succ hk)

/-- Storing where the window does not reach leaves it alone. -/
theorem window_overlay {h n : Nat} (hn : n < cap) (x : α) :
    window cap (overlay mem ((h + n) % cap) [x]) h n = window cap mem h n := by
  refine List.map_congr_left fun k hk => ?_
  have hk := List.mem_range.mp hk
  have hne : (h + k) % cap ≠ (h + n) % cap := by
    intro heq
    have hmod : k % cap = n % cap := Nat.ModEq.add_left_cancel' h heq
    rw [Nat.mod_eq_of_lt (by omega), Nat.mod_eq_of_lt hn] at hmod
    omega
  by_cases hlt : (h + k) % cap < (h + n) % cap
  · exact overlay_of_lt _ _ _ hlt
  · exact overlay_of_ge _ _ _ (by simp; omega)

theorem overlay_self (t : Nat) (x : α) : overlay mem t [x] t = x := by
  simp [overlay]

/-- What is stored behind a window becomes its continuation. -/
theorem window_ringWrite (h n : Nat) (xs : List α) (hle : n + xs.length ≤ cap) :
    window cap (ringWrite cap mem (h + n) xs) h (n + xs.length) =
      window cap mem h n ++ xs := by
  induction xs generalizing mem n with
  | nil => simp [ringWrite]
  | cons x xs ih =>
      rw [List.length_cons] at hle
      have hlen : n + (x :: xs).length = n + 1 + xs.length := by
        rw [List.length_cons]
        omega
      rw [ringWrite_cons, hlen, Nat.add_assoc, ih _ (n + 1) (by omega), window_add,
        window_overlay mem (by omega), List.append_assoc]
      simp [window, overlay_self]

end Plo
