import Plo.Base.Latest
import Mathlib.Algebra.Order.Ring.Nat
import Mathlib.Data.List.Range
import Mathlib.Tactic.Have

/-!
Address ranges laid out over sections of `2 ^ bits` bytes. A loop steps through a
range by whole sections; ranges are entered one after another, and a section belongs
to the last range that touches it.
-/
namespace Plo
universe u
variable {φ : Type u}

/-- A range and what it is entered with. -/
structure MapRange (φ : Type u) where
  base : Nat
  size : Nat
  flags : φ

namespace MapRange
variable (bits : Nat)

/-- The rounds of `for (sz = 0; sz < size; sz += 2 ^ bits)`. -/
def rounds (r : MapRange φ) : Nat := (r.size + (2 ^ bits - 1)) / 2 ^ bits

/-- The addresses the loop visits. -/
def addrs (r : MapRange φ) : List Nat := (List.range (r.rounds bits)).map fun k => r.base + k * 2 ^ bits

/-- The loop visits the section. -/
def Covers (r : MapRange φ) (s : Nat) : Prop :=
  r.base / 2 ^ bits ≤ s ∧ (s - r.base / 2 ^ bits) * 2 ^ bits < r.size

instance (r : MapRange φ) (s : Nat) : Decidable (r.Covers bits s) := inferInstanceAs (Decidable (_ ∧ _))

/-- The address at which it does. -/
def visit (r : MapRange φ) (s : Nat) : Nat := r.base + (s - r.base / 2 ^ bits) * 2 ^ bits

variable {bits}

theorem lt_rounds_iff (r : MapRange φ) (k : Nat) : k < r.rounds bits ↔ k * 2 ^ bits < r.size := by
  have hpos : 0 < 2 ^ bits := Nat.two_pow_pos bits
  rw [rounds, Nat.lt_div_iff_mul_lt hpos]
  omega

theorem visit_div (r : MapRange φ) {s : Nat} (h : r.base / 2 ^ bits ≤ s) :
    r.visit bits s / 2 ^ bits = s := by
  rw [visit, Nat.add_mul_div_right _ _ (Nat.two_pow_pos bits)]
  omega

theorem visit_lt {r : MapRange φ} {s limit : Nat} (hfit : r.base + r.size ≤ limit)
    (h : r.Covers bits s) : r.visit bits s < limit := by
  have hsize := h.2
  rw [visit]
  omega

theorem step_div (r : MapRange φ) (k : Nat) :
    (r.base + k * 2 ^ bits) / 2 ^ bits = r.base / 2 ^ bits + k :=
  Nat.add_mul_div_right _ _ (Nat.two_pow_pos bits)

/-- The latest address of the loop in a section. -/
theorem latest_addrs (r : MapRange φ) (s : Nat) :
    latest (· / 2 ^ bits) s (r.addrs bits) =
      if r.Covers bits s then some (r.visit bits s) else none := by
  split
  · next h =>
    refine latest_eq_some ?_ (visit_div r h.1) fun a ha hkey => ?_
    · exact List.mem_map.mpr ⟨s - r.base / 2 ^ bits,
        List.mem_range.mpr ((lt_rounds_iff r _).mpr h.2), rfl⟩
    · obtain ⟨k, -, rfl⟩ := List.mem_map.mp ha
      simp only [step_div] at hkey
      rw [visit, ← hkey, Nat.add_sub_cancel_left]
  · next h =>
    refine latest_eq_none_iff.mpr fun a ha hkey => h ?_
    obtain ⟨k, hk, rfl⟩ := List.mem_map.mp ha
    simp only [step_div] at hkey
    refine ⟨by omega, ?_⟩
    rw [← hkey, Nat.add_sub_cancel_left]
    exact (lt_rounds_iff r k).mp (List.mem_range.mp hk)

end MapRange

variable (bits : Nat)

/-- The writes of the loops over some ranges. -/
def regionWrites (regions : List (MapRange φ)) : List (Nat × φ) :=
  regions.flatMap fun r => (r.addrs bits).map fun a => (a, r.flags)

theorem regionWrites_cons (r : MapRange φ) (regions : List (MapRange φ)) :
    regionWrites bits (r :: regions) =
      (r.addrs bits).map (fun a => (a, r.flags)) ++ regionWrites bits regions := rfl

/-- The last range that touches the section. -/
def lastRegion (regions : List (MapRange φ)) (s : Nat) : Option (MapRange φ) :=
  regions.reverse.find? fun r => decide (r.Covers bits s)

variable {bits}

theorem lastRegion_concat (regions : List (MapRange φ)) (r : MapRange φ) (s : Nat) :
    lastRegion bits (regions ++ [r]) s =
      if r.Covers bits s then some r else lastRegion bits regions s := by
  rw [lastRegion, List.reverse_append, List.reverse_singleton, List.singleton_append,
    List.find?_cons]
  by_cases h : r.Covers bits s
  · rw [if_pos h, decide_eq_true h]
  · rw [if_neg h, decide_eq_false h]
    rfl

theorem lastRegion_covers {regions : List (MapRange φ)} {s : Nat} {r : MapRange φ}
    (h : lastRegion bits regions s = some r) : r ∈ regions ∧ r.Covers bits s := by
  rw [lastRegion] at h
  have hfound := List.find?_some h
  exact ⟨List.mem_reverse.mp (List.mem_of_find?_eq_some h), of_decide_eq_true hfound⟩

theorem latest_map (l : List Nat) (flags : φ) (s : Nat) :
    latest (fun w : Nat × φ => w.1 / 2 ^ bits) s (l.map fun a => (a, flags)) =
      (latest (· / 2 ^ bits) s l).map fun a => (a, flags) := by
  induction l using List.reverseRecOn with
  | nil => rfl
  | append_singleton l a ih =>
      rw [List.map_append, List.map_singleton, latest_concat, latest_concat, ih]
      split <;> rfl

/-- A section is written last by the last range that touches it. -/
theorem latest_regionWrites (regions : List (MapRange φ)) (s : Nat) :
    latest (fun w : Nat × φ => w.1 / 2 ^ bits) s (regionWrites bits regions) =
      (lastRegion bits regions s).map fun r => (r.visit bits s, r.flags) := by
  induction regions using List.reverseRecOn with
  | nil => rfl
  | append_singleton regions r ih =>
      rw [regionWrites, List.flatMap_append, latest_append, lastRegion_concat]
      simp only [List.flatMap_cons, List.flatMap_nil, List.append_nil]
      rw [latest_map, MapRange.latest_addrs, ← regionWrites, ih]
      split <;> rfl

theorem regionWrites_lt {regions : List (MapRange φ)} {limit : Nat}
    (hfit : ∀ r ∈ regions, r.base + r.size ≤ limit) {w : Nat × φ}
    (hw : w ∈ regionWrites bits regions) : w.1 < limit := by
  obtain ⟨r, hr, hw⟩ := List.mem_flatMap.mp hw
  obtain ⟨a, ha, rfl⟩ := List.mem_map.mp hw
  obtain ⟨k, hk, rfl⟩ := List.mem_map.mp ha
  have hk := (MapRange.lt_rounds_iff r k).mp (List.mem_range.mp hk)
  have hfit := hfit r hr
  simp only
  omega

section Calls
variable {γ : Type*} {key : γ → Nat} {call : Nat → φ → γ}

theorem latest_calls {l : List (Nat × φ)} (hkey : ∀ w ∈ l, key (call w.1 w.2) = w.1 / 2 ^ bits)
    (s : Nat) :
    latest key s (l.map fun w => call w.1 w.2) =
      (latest (fun w : Nat × φ => w.1 / 2 ^ bits) s l).map fun w => call w.1 w.2 := by
  induction l using List.reverseRecOn with
  | nil => rfl
  | append_singleton l w ih =>
      rw [List.map_append, List.map_singleton, latest_concat, latest_concat, hkey w (by simp),
        ih fun w hw => hkey w (List.mem_append_left _ hw)]
      split <;> rfl

/-- The same for calls that are made of the writes, by the section a call is for. -/
theorem latest_regionCalls {limit : Nat}
    (hkey : ∀ a < limit, ∀ flags, key (call a flags) = a / 2 ^ bits) {regions : List (MapRange φ)}
    (hfit : ∀ r ∈ regions, r.base + r.size ≤ limit) (s : Nat) :
    latest key s ((regionWrites bits regions).map fun w => call w.1 w.2) =
      (lastRegion bits regions s).map fun r => call (r.visit bits s) r.flags := by
  rw [latest_calls fun w hw => hkey w.1 (regionWrites_lt hfit hw) w.2, latest_regionWrites,
    Option.map_map]
  rfl

end Calls

end Plo
