import Mathlib.Logic.Function.Basic
import Mathlib.Data.List.Basic
import Mathlib.Data.List.Induction

/-!
Writes to a table one after another. What the table holds at a place is what the
latest write there left, and the old contents where there was none.
-/
namespace Plo
universe u v w
variable {ι : Type u} {κ : Type v} {α : Type w} [DecidableEq κ]

/-- The latest element of the list with the given key. -/
def latest (key : ι → κ) (k : κ) (l : List ι) : Option ι :=
  l.reverse.find? fun i => decide (key i = k)

variable {key : ι → κ} {k : κ}

@[simp] theorem latest_nil : latest key k [] = none := rfl

theorem latest_concat (l : List ι) (i : ι) :
    latest key k (l ++ [i]) = if key i = k then some i else latest key k l := by
  rw [latest, List.reverse_append, List.reverse_singleton, List.singleton_append, List.find?_cons]
  by_cases h : key i = k
  · rw [if_pos h, decide_eq_true h]
  · rw [if_neg h, decide_eq_false h]
    rfl

theorem latest_append (l l' : List ι) :
    latest key k (l ++ l') = (latest key k l').or (latest key k l) := by
  rw [latest, List.reverse_append, List.find?_append]
  rfl

theorem latest_mem {l : List ι} {i : ι} (h : latest key k l = some i) : i ∈ l :=
  List.mem_reverse.mp (List.mem_of_find?_eq_some h)

theorem latest_key {l : List ι} {i : ι} (h : latest key k l = some i) : key i = k := by
  rw [latest] at h
  have hfound := List.find?_some h
  exact of_decide_eq_true hfound

theorem latest_eq_none_iff {l : List ι} : latest key k l = none ↔ ∀ i ∈ l, key i ≠ k := by
  rw [latest, List.find?_eq_none]
  constructor
  · intro h i hi hkey
    exact h i (List.mem_reverse.mpr hi) (decide_eq_true hkey)
  · intro h i hi hkey
    exact h i (List.mem_reverse.mp hi) (of_decide_eq_true hkey)

/-- An element that no other one of the list agrees with. -/
theorem latest_eq_some {l : List ι} {i : ι} (hi : i ∈ l) (hkey : key i = k)
    (honly : ∀ j ∈ l, key j = k → j = i) : latest key k l = some i := by
  cases h : latest key k l with
  | none => exact absurd hkey (latest_eq_none_iff.mp h i hi)
  | some j => rw [honly j (latest_mem h) (latest_key h)]

theorem latest_congr {κ' : Type*} [DecidableEq κ'] {key' : ι → κ'} {k' : κ'} {l : List ι}
    (h : ∀ i ∈ l, key i = k ↔ key' i = k') : latest key k l = latest key' k' l := by
  induction l using List.reverseRecOn with
  | nil => rfl
  | append_singleton l i ih =>
      rw [latest_concat, latest_concat, ih fun j hj => h j (List.mem_append_left _ hj),
        if_congr (h i (by simp)) rfl rfl]

/-- Writes one after another. -/
theorem foldl_update (val : ι → α) (f : κ → α) (l : List ι) (k : κ) :
    l.foldl (fun f i => Function.update f (key i) (val i)) f k =
      ((latest key k l).map val).getD (f k) := by
  induction l using List.reverseRecOn with
  | nil => rfl
  | append_singleton l i ih =>
      rw [List.foldl_concat, latest_concat]
      by_cases h : key i = k
      · rw [if_pos h, ← h, Function.update_self]
        rfl
      · rw [if_neg h, Function.update_of_ne (Ne.symm h), ih]

end Plo
