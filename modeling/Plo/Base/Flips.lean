import Mathlib.Data.List.Basic
import Mathlib.Order.Basic

/-!
In how many bits two strings of bytes differ. Clearing the same bits in both brings them
no further apart, and among words that are far enough apart the one that a damaged word
came from is found again.
-/
namespace Plo

/-- In how many bits two bytes differ. -/
def flips (x y : UInt8) : Nat :=
  (List.range 8).countP fun i => x.toBitVec.getLsbD i != y.toBitVec.getLsbD i

/-- In how many bits two strings differ, up to the end of the shorter one. -/
def distance : List UInt8 → List UInt8 → Nat
  | x :: xs, y :: ys => flips x y + distance xs ys
  | _, _ => 0

section Flips
variable (x y z : UInt8)

@[simp] theorem flips_self : flips x x = 0 := by simp [flips]

theorem flips_comm : flips x y = flips y x := by simp only [flips, bne_comm]

theorem countP_le_add {α : Type} {p q r : α → Bool} (l : List α) (h : ∀ a, p a → q a ∨ r a) :
    l.countP p ≤ l.countP q + l.countP r := by
  induction l with
  | nil => exact Nat.zero_le _
  | cons a l ih =>
      have ha := h a
      simp only [List.countP_cons]
      cases hp : p a with
      | false => simp only [Bool.false_eq_true, if_false]; omega
      | true =>
          rcases ha hp with hq | hr
          · simp only [hq, if_true]; omega
          · simp only [hr, if_true]; omega

theorem flips_triangle : flips x z ≤ flips x y + flips y z := by
  refine countP_le_add _ fun i hi => ?_
  simp only [bne_iff_ne, ne_eq] at hi ⊢
  by_contra hsame
  push Not at hsame
  exact hi (hsame.1.trans hsame.2)

/-- Clearing the same bits in two bytes brings them no further apart. -/
theorem flips_and_le : flips (x &&& z) (y &&& z) ≤ flips x y := by
  refine List.countP_mono_left fun i _ hi => ?_
  simp only [UInt8.toBitVec_and, BitVec.getLsbD_and, bne_iff_ne, ne_eq] at hi ⊢
  exact fun heq => hi (by rw [heq])

theorem flips_eq_zero {x y : UInt8} (h : flips x y = 0) : x = y := by
  refine UInt8.eq_of_toBitVec_eq (BitVec.eq_of_getLsbD_eq fun i hi => ?_)
  have hsame := List.countP_eq_zero.mp h i (List.mem_range.mpr hi)
  simpa using hsame

end Flips

section Distance
variable (xs ys zs : List UInt8)

@[simp] theorem distance_self : distance xs xs = 0 := by
  induction xs with
  | nil => rfl
  | cons x xs ih => rw [distance, flips_self, ih]

theorem distance_comm : distance xs ys = distance ys xs := by
  induction xs generalizing ys with
  | nil => cases ys <;> rfl
  | cons x xs ih =>
      cases ys with
      | nil => rfl
      | cons y ys => rw [distance, distance, flips_comm, ih]

variable {xs ys zs}

theorem distance_triangle (hxy : xs.length = ys.length) (hyz : ys.length = zs.length) :
    distance xs zs ≤ distance xs ys + distance ys zs := by
  induction xs generalizing ys zs with
  | nil => cases zs <;> exact Nat.zero_le _
  | cons x xs ih =>
      cases ys with
      | nil => cases hxy
      | cons y ys =>
          cases zs with
          | nil => cases hyz
          | cons z zs =>
              have hhead := flips_triangle x y z
              have htail := ih (Nat.succ.inj hxy) (Nat.succ.inj hyz)
              simp only [distance]
              omega

theorem distance_append {xs' ys' : List UInt8} (h : xs.length = ys.length) :
    distance (xs ++ xs') (ys ++ ys') = distance xs ys + distance xs' ys' := by
  induction xs generalizing ys with
  | nil =>
      cases ys with
      | nil => simp [distance]
      | cons y ys => cases h
  | cons x xs ih =>
      cases ys with
      | nil => cases h
      | cons y ys =>
          simp only [List.cons_append, distance, ih (Nat.succ.inj h)]
          omega

/-- Clearing the same bits in two strings brings them no further apart. -/
theorem distance_and_le :
    distance (List.zipWith (· &&& ·) xs zs) (List.zipWith (· &&& ·) ys zs) ≤ distance xs ys := by
  induction xs generalizing ys zs with
  | nil => simp [distance]
  | cons x xs ih =>
      cases zs with
      | nil => simp
      | cons z zs =>
          cases ys with
          | nil => simp [distance]
          | cons y ys => exact Nat.add_le_add (flips_and_le x y z) ih

end Distance

/-- The first of the messages whose word is within `cap` flips of the one received. -/
def nearest {α : Type} (word : α → List UInt8) (cap : Nat) (received : List UInt8) (l : List α) :
    Option α :=
  l.find? fun a => distance (word a) received ≤ cap

/-- Words more than twice as far apart as bits may flip: what was sent is found. -/
theorem nearest_eq {α : Type} {word : α → List UInt8} {cap : Nat} {received : List UInt8}
    {l : List α} {a : α} (ha : a ∈ l) (hlen : ∀ b ∈ l, (word b).length = received.length)
    (hfar : ∀ b ∈ l, b ≠ a → 2 * cap < distance (word a) (word b))
    (hnear : distance (word a) received ≤ cap) : nearest word cap received l = some a := by
  cases hfind : nearest word cap received l with
  | none => exact absurd (decide_eq_true hnear) (List.find?_eq_none.mp hfind a ha)
  | some b =>
      have hb := List.mem_of_find?_eq_some hfind
      have hclose := List.find?_some hfind
      simp only [decide_eq_true_eq] at hclose
      by_contra hne
      have hba : b ≠ a := fun heq => hne (by rw [heq])
      have hdist := hfar b hb hba
      have htri : distance (word a) (word b) ≤ distance (word a) received + distance received (word b) :=
        distance_triangle (hlen a ha) (hlen b hb).symm
      rw [distance_comm received] at htri
      omega

end Plo
