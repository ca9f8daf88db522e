import Mathlib.Data.Nat.Digits.Defs

/-!
Digits as loops write and read them. A number is written from its lowest digit on,
by a loop that stops when nothing is left or by one of a fixed number of turns, and
read from the highest one on.
-/
namespace Plo
variable {b : Nat}

/-- The lowest `k` digits, whatever follows. -/
def lowDigits (b : Nat) : Nat → Nat → List Nat
  | 0, _ => []
  | k + 1, n => n % b :: lowDigits b k (n / b)

@[simp] theorem length_lowDigits (k n : Nat) : (lowDigits b k n).length = k := by
  induction k generalizing n with
  | zero => rfl
  | succ k ih => rw [lowDigits, List.length_cons, ih]

/-- The digits up to the highest, at least one. -/
def numDigits (b n : Nat) : List Nat := if n = 0 then [0] else b.digits n

theorem numDigits_of_pos {n : Nat} (h : n ≠ 0) : numDigits b n = b.digits n := if_neg h

theorem numDigits_lt (hb : 1 < b) {n d : Nat} (h : d ∈ numDigits b n) : d < b := by
  rw [numDigits] at h
  split at h
  · rw [List.mem_singleton.mp h]
    exact Nat.zero_lt_of_lt hb
  · exact Nat.digits_lt_base hb h

/-- Digits written apart: the lowest ones, then the rest unless it is zero. -/
theorem digits_eq_low_append (hb : 1 < b) (k : Nat) {n : Nat} (h : n / b ^ k ≠ 0) :
    b.digits n = lowDigits b k n ++ b.digits (n / b ^ k) := by
  induction k generalizing n with
  | zero => rw [lowDigits, List.nil_append, pow_zero, Nat.div_one]
  | succ k ih =>
      have hdiv : n / b / b ^ k = n / b ^ (k + 1) := by rw [Nat.div_div_eq_div_mul, pow_succ']
      have hn : 0 < n := by
        rcases Nat.eq_zero_or_pos n with rfl | hpos
        · exact absurd (Nat.zero_div _) h
        · exact hpos
      rw [Nat.digits_def' hb hn, lowDigits, List.cons_append, ih (hdiv ▸ h), hdiv]

theorem lowDigits_congr {k n n' : Nat} (h : n % b ^ k = n' % b ^ k) :
    lowDigits b k n = lowDigits b k n' := by
  induction k generalizing n n' with
  | zero => rfl
  | succ k ih =>
      rw [pow_succ'] at h
      have hlow : n % b = n' % b := by
        rw [← Nat.mod_mul_right_mod n b (b ^ k), h, Nat.mod_mul_right_mod]
      have hhigh : n / b % b ^ k = n' / b % b ^ k := by
        rw [← Nat.mod_mul_right_div_self, ← Nat.mod_mul_right_div_self, h]
      rw [lowDigits, lowDigits, hlow, ih hhigh]

/-- The value of digits read one after another, the highest first. -/
def readDigits (b : Nat) (ds : List Nat) : Nat := ds.foldl (fun v d => v * b + d) 0

theorem readDigits_reverse (b : Nat) (ds : List Nat) :
    readDigits b ds.reverse = Nat.ofDigits b ds := by
  rw [readDigits, List.foldl_reverse, Nat.ofDigits_eq_foldr]
  congr 1
  funext d v
  rw [Nat.add_comm, Nat.mul_comm]
  rfl

theorem readDigits_zeros (b k : Nat) (ds : List Nat) :
    readDigits b (List.replicate k 0 ++ ds) = readDigits b ds := by
  induction k with
  | zero => rfl
  | succ k ih =>
      rw [List.replicate_succ, List.cons_append, ← ih, readDigits, List.foldl_cons, Nat.zero_mul]
      rfl

/-- A number is read back from its digits, with any zeros before them. -/
theorem readDigits_numDigits (b k n : Nat) :
    readDigits b (List.replicate k 0 ++ (numDigits b n).reverse) = n := by
  rw [readDigits_zeros, readDigits_reverse, numDigits]
  split
  · next h => rw [h, Nat.ofDigits_singleton]
  · exact Nat.ofDigits_digits b n

end Plo
