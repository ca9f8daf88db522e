import Plo.Lib.Types
import Mathlib.Logic.Function.Basic
import Mathlib.Data.List.Basic
import Mathlib.Data.List.Induction

/-!
The table of devices: a row of slots for each major number. A driver asks for a
number of slots of one major; it is given the free ones with the lowest minors, as
many as there are. Nothing is taken back, so a row holds the drivers in the order
they asked.
-/
namespace Plo.Devices

abbrev SIZE_MAJOR : Nat := 11
abbrev SIZE_MINOR : Nat := 16

/-- `devs_common`: the drivers by major and minor. -/
abbrev Devs (δ : Type) := Nat → Nat → Option δ

/-- The arguments of `devs_register`. -/
structure Registration (δ : Type) where
  major : Nat
  nb : Nat
  dev : δ

variable {δ : Type}

/-- The loop of `devs_register` over one row, the last `left` minors still to be
visited and `i` slots given so far. -/
def registerMinors (nb : Nat) (dev : δ) : Nat → Nat → (Nat → Option δ) → Nat → Option δ
  | 0, _, row => row
  | left + 1, i, row =>
    if i < nb then
      if row (SIZE_MINOR - (left + 1)) = none then
        registerMinors nb dev left (i + 1)
          (Function.update row (SIZE_MINOR - (left + 1)) (some dev))
      else registerMinors nb dev left i row
    else row

def devsRegister (devs : Devs δ) (r : Registration δ) : Devs δ :=
  if r.major ≥ SIZE_MAJOR ∨ r.nb ≥ SIZE_MINOR then devs
  else
    Function.update devs r.major (registerMinors r.nb r.dev SIZE_MINOR 0 (devs r.major))

def devsGet (devs : Devs δ) (major minor : Nat) : Option δ :=
  if major < SIZE_MAJOR ∧ minor < SIZE_MINOR then devs major minor else none

/-- The table before the first constructor runs. -/
def devsEmpty : Devs δ := fun _ _ => none

/-- What drivers have asked of one major, in the order they asked; a call that
`devs_register` ignores asks for nothing. -/
def asked (major : Nat) (calls : List (Registration δ)) : List δ :=
  calls.flatMap fun r =>
    if r.major = major ∧ r.major < SIZE_MAJOR ∧ r.nb < SIZE_MINOR then List.replicate r.nb r.dev
    else []

/-- The drivers of one major, the abstract row. -/
def granted (major : Nat) (calls : List (Registration δ)) : List δ :=
  (asked major calls).take SIZE_MINOR

/-- The row holds the list as far as it is long. -/
def Holds (row : Nat → Option δ) (ds : List δ) : Prop := ∀ minor < SIZE_MINOR, row minor = ds[minor]?

/-- The table holds what the calls have asked for. -/
def Registered (devs : Devs δ) (calls : List (Registration δ)) : Prop :=
  ∀ major < SIZE_MAJOR, Holds (devs major) (asked major calls)

theorem getElem?_append_replicate (ds : List δ) (dev : δ) {n k minor : Nat}
    (hlt : minor < ds.length + n) (hn : n ≤ k) :
    (ds ++ List.replicate n dev)[minor]? = (ds ++ List.replicate k dev)[minor]? := by
  rcases Nat.lt_or_ge minor ds.length with h | h
  · rw [List.getElem?_append_left h, List.getElem?_append_left h]
  · rw [List.getElem?_append_right h, List.getElem?_append_right h,
      List.getElem?_replicate_of_lt (by omega), List.getElem?_replicate_of_lt (by omega)]

theorem holds_update {row : Nat → Option δ} {ds : List δ} {dev : δ} {minor : Nat}
    (h : Holds row ds) (hminor : minor = ds.length) :
    Holds (Function.update row minor (some dev)) (ds ++ [dev]) := by
  subst hminor
  intro m hm
  rcases Nat.lt_trichotomy m ds.length with hlt | heq | hgt
  · rw [Function.update_of_ne (by omega), h m hm, List.getElem?_append_left hlt]
  · rw [heq, Function.update_self, List.getElem?_concat_length]
  · rw [Function.update_of_ne (by omega), h m hm, List.getElem?_eq_none (by omega),
      List.getElem?_eq_none (by rw [List.length_append, List.length_singleton]; omega)]

/-- The loop, from a minor up to which the row is the old one or what was given last
stands: it fills the row up to the number of slots asked for. -/
theorem holds_registerMinors {nb : Nat} {dev : δ} {ds : List δ} (left i : Nat)
    {row : Nat → Option δ} (hleft : left ≤ SIZE_MINOR) (hi : i ≤ nb)
    (hat : SIZE_MINOR - left ≤ ds.length ∧ i = 0 ∨ SIZE_MINOR - left = ds.length + i)
    (hrow : Holds row (ds ++ List.replicate i dev)) :
    Holds (registerMinors nb dev left i row) (ds ++ List.replicate nb dev) := by
  induction left generalizing i row with
  | zero =>
      intro m hm
      rw [registerMinors, hrow m hm]
      exact getElem?_append_replicate ds dev (by omega) hi
  | succ left ih =>
      have hvisit : SIZE_MINOR - (left + 1) < SIZE_MINOR := by omega
      rw [registerMinors]
      split
      · next hlt =>
        have hlen : (ds ++ List.replicate i dev).length = ds.length + i := by simp
        split
        · next hfree =>
          rw [hrow _ hvisit, List.getElem?_eq_none_iff, hlen] at hfree
          refine ih (i + 1) (by omega) (by omega) (Or.inr (by omega)) ?_
          rw [List.replicate_succ', ← List.append_assoc]
          exact holds_update hrow (by omega)
        · next htaken =>
          rw [hrow _ hvisit, List.getElem?_eq_none_iff, hlen] at htaken
          exact ih i (by omega) hi (Or.inl (by omega)) hrow
      · next hge =>
        obtain rfl : i = nb := by omega
        exact hrow

theorem asked_concat (major : Nat) (calls : List (Registration δ)) (r : Registration δ) :
    asked major (calls ++ [r]) = asked major calls ++
      if r.major = major ∧ r.major < SIZE_MAJOR ∧ r.nb < SIZE_MINOR then
        List.replicate r.nb r.dev
      else [] := by
  simp [asked]

/-- One call: the row of its major is extended, another one stays. -/
theorem Registered.register {devs : Devs δ} {calls : List (Registration δ)}
    (h : Registered devs calls) (r : Registration δ) :
    Registered (devsRegister devs r) (calls ++ [r]) := by
  intro major hmajor
  rw [asked_concat, devsRegister]
  by_cases hr : r.major = major
  · subst hr
    by_cases hnb : r.nb < SIZE_MINOR
    · rw [if_neg (by omega), if_pos ⟨rfl, hmajor, hnb⟩, Function.update_self]
      exact holds_registerMinors SIZE_MINOR 0 le_rfl (Nat.zero_le _)
        (Or.inl ⟨by omega, rfl⟩) (by simpa using h r.major hmajor)
    · rw [if_pos (Or.inr (by omega)), if_neg (fun hc => hnb hc.2.2), List.append_nil]
      exact h r.major hmajor
  · have hother : ¬(r.major = major ∧ r.major < SIZE_MAJOR ∧ r.nb < SIZE_MINOR) :=
      fun hc => hr hc.1
    rw [if_neg hother, List.append_nil]
    split
    · exact h major hmajor
    · rw [Function.update_of_ne (Ne.symm hr)]
      exact h major hmajor

theorem registered_foldl (calls : List (Registration δ)) :
    Registered (calls.foldl devsRegister devsEmpty) calls := by
  induction calls using List.reverseRecOn with
  | nil =>
      intro major _ minor _
      simp [devsEmpty, asked]
  | append_singleton calls r ih =>
      rw [List.foldl_concat]
      exact ih.register r

theorem asked_eq_nil {major : Nat} (h : SIZE_MAJOR ≤ major) (calls : List (Registration δ)) :
    asked major calls = [] := by
  rw [asked, List.flatMap_eq_nil_iff]
  intro r _
  exact if_neg (by omega)

theorem Registered.devsGet {devs : Devs δ} {calls : List (Registration δ)}
    (h : Registered devs calls) (major minor : Nat) :
    devsGet devs major minor = (granted major calls)[minor]? := by
  rw [Devices.devsGet, granted, List.getElem?_take]
  by_cases hmajor : major < SIZE_MAJOR
  · by_cases hminor : minor < SIZE_MINOR
    · rw [if_pos ⟨hmajor, hminor⟩, if_pos hminor]
      exact h major hmajor minor hminor
    · rw [if_neg (fun h => hminor h.2), if_neg hminor]
  · rw [if_neg (fun h => hmajor h.1), asked_eq_nil (by omega), List.getElem?_nil, ite_self]

/-- The table after any registrations is the abstract one. -/
theorem devsGet_registered (calls : List (Registration δ)) (major minor : Nat) :
    devsGet (calls.foldl devsRegister devsEmpty) major minor = (granted major calls)[minor]? :=
  (registered_foldl calls).devsGet major minor

end Plo.Devices
