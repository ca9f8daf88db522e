import Plo.Base.Window

/-!
A queue on a ring that always keeps a free cell, so that its two ends tell an empty ring
from a full one. Bytes are taken from the ring and put on it in two pieces, up to the end
of the memory and from its beginning on.
-/
namespace Plo
universe u
variable {α : Type u} {cap : Nat} {mem : Nat → α} {start stop : Nat} {q : List α}

/-- The queue lies on the ring from `start` on and ends at `stop`. -/
structure OnRing (cap : Nat) (mem : Nat → α) (start stop : Nat) (q : List α) : Prop where
  length_lt : q.length < cap
  stop_eq : stop = (start + q.length) % cap
  cells : q = window cap mem start q.length

namespace OnRing

theorem nil (hcap : 0 < cap) (mem : Nat → α) (start : Nat) : OnRing cap mem start (start % cap) [] :=
  ⟨hcap, rfl, rfl⟩

theorem stop_lt (h : OnRing cap mem start stop q) : stop < cap := by
  rw [h.stop_eq]
  exact Nat.mod_lt _ (Nat.zero_lt_of_lt h.length_lt)

theorem start_mod : OnRing cap mem (start % cap) stop q ↔ OnRing cap mem start stop q := by
  constructor <;> rintro ⟨hlt, hstop, hcells⟩
  · exact ⟨hlt, by rw [hstop, Nat.mod_add_mod], by rw [window_mod] at hcells; exact hcells⟩
  · exact ⟨hlt, by rw [hstop, Nat.mod_add_mod], by rw [window_mod]; exact hcells⟩

/-- How far apart the ends are. -/
theorem stop_cases (h : OnRing cap mem start stop q) (hstart : start < cap) :
    (start ≤ stop ∧ stop = start + q.length) ∨ (stop < start ∧ stop + cap = start + q.length) := by
  have hlt := h.length_lt
  have hstop := h.stop_eq
  rw [mod_ring hstart hlt.le] at hstop
  split at hstop
  · exact Or.inl ⟨by omega, hstop⟩
  · exact Or.inr ⟨by omega, by omega⟩

theorem stop_eq_start_iff (h : OnRing cap mem start stop q) (hstart : start < cap) :
    stop = start ↔ q = [] := by
  rw [← List.length_eq_zero_iff]
  have := h.stop_cases hstart
  have := h.length_lt
  omega

theorem append (h : OnRing cap mem start stop q) (xs : List α) (hroom : q.length + xs.length < cap) :
    OnRing cap (ringWrite cap mem stop xs) start ((stop + xs.length) % cap) (q ++ xs) := by
  obtain ⟨-, rfl, hcells⟩ := h
  refine ⟨by rwa [List.length_append], ?_, ?_⟩
  · rw [Nat.mod_add_mod, List.length_append, Nat.add_assoc]
  · rw [List.length_append, ringWrite_mod, window_ringWrite _ _ _ _ hroom.le, ← hcells]

theorem drop (h : OnRing cap mem start stop q) {n : Nat} (hn : n ≤ q.length) :
    OnRing cap mem (start + n) stop (q.drop n) := by
  obtain ⟨hlt, hstop, hcells⟩ := h
  refine ⟨?_, ?_, ?_⟩
  · rw [List.length_drop]
    omega
  · rw [List.length_drop, hstop, Nat.add_assoc, Nat.add_sub_cancel' hn]
  · rw [List.length_drop, ← window_drop, ← hcells]

theorem front {x : α} {rest : List α} (h : OnRing cap mem start stop (x :: rest)) :
    mem (start % cap) = x := by
  have hcells := congrArg List.head? h.cells
  rw [List.length_cons, Nat.add_comm, window_add] at hcells
  exact (Option.some.inj hcells).symm

/-- A full ring takes one more in place of its oldest. -/
theorem evict (h : OnRing cap mem start stop q) (hfull : q.length + 1 = cap) (x : α) :
    OnRing cap (overlay mem stop [x]) (start + 1) ((stop + 1) % cap) ((q ++ [x]).tail) := by
  obtain ⟨-, hstop, hcells⟩ := h
  have hlen : (q ++ [x]).length = cap := by
    rw [List.length_append, List.length_singleton, hfull]
  refine ⟨?_, ?_, ?_⟩
  · rw [List.length_tail, hlen]
    omega
  · rw [hstop, Nat.mod_add_mod, List.length_tail, hlen]
    congr 1
    omega
  · have hwrite := window_ringWrite mem start q.length [x] (by rw [List.length_singleton, hfull])
    rw [← ringWrite_mod, ← hcells, ringWrite, Nat.mod_mod, ringWrite, ← hstop,
      List.length_singleton] at hwrite
    rw [← List.drop_one, ← hwrite, window_drop, length_window]

end OnRing

section Pieces
variable (hstart : start < cap)
include hstart

theorem window_pieces {n : Nat} (hn : n ≤ cap) :
    window cap mem start n =
      slice mem start (min n (cap - start)) ++ slice mem 0 (n - (cap - start)) := by
  have hsum : n = min n (cap - start) + (n - (cap - start)) := by omega
  conv_lhs => rw [hsum, window_add, window_eq_slice _ (by omega)]
  congr 1
  by_cases hwrap : n ≤ cap - start
  · rw [Nat.sub_eq_zero_of_le hwrap]
    rfl
  · have hend : start + min n (cap - start) = cap := by omega
    rw [hend, ← window_mod, Nat.mod_self, window_eq_slice _ (by omega)]

theorem ringWrite_pieces {xs : List α} (hlen : xs.length ≤ cap) :
    ringWrite cap mem start xs =
      overlay (overlay mem start (xs.take (cap - start))) 0 (xs.drop (cap - start)) := by
  have htake : (xs.take (cap - start)).length = min (cap - start) xs.length := List.length_take
  have hdrop : (xs.drop (cap - start)).length = xs.length - (cap - start) := List.length_drop
  have hfirst : ringWrite cap mem start (xs.take (cap - start)) =
      overlay mem start (xs.take (cap - start)) := ringWrite_eq_overlay mem (by omega)
  conv_lhs => rw [← List.take_append_drop (cap - start) xs, ringWrite_append, hfirst]
  by_cases hwrap : xs.length ≤ cap - start
  · rw [List.drop_of_length_le hwrap, overlay_nil]
    rfl
  · have hend : start + (xs.take (cap - start)).length = cap := by omega
    rw [hend, ← ringWrite_mod _ cap, Nat.mod_self, ringWrite_eq_overlay _ (by omega)]

end Pieces

end Plo
