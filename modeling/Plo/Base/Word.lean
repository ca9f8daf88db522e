import Mathlib.Algebra.Order.Ring.Nat
import Mathlib.Data.Nat.Bitwise

/-!
Unsigned machine words read as natural numbers. Additions and subtractions are
given by their two cases, with and without wrap-around, so that linear
arithmetic can take over; masks are given as quotients and remainders.
-/
namespace Plo

theorem land_highMask (x : Nat) {n k : Nat} (hk : k ≤ n) :
    x &&& (2 ^ n - 2 ^ k) = x % 2 ^ n / 2 ^ k * 2 ^ k := by
  have hpos : 0 < 2 ^ k := Nat.two_pow_pos k
  have hle : 2 ^ k ≤ 2 ^ n := Nat.pow_le_pow_right (by decide) hk
  have hmask : 2 ^ n - 2 ^ k = 2 ^ n - (2 ^ k - 1 + 1) := by omega
  apply Nat.eq_of_testBit_eq
  intro i
  rw [hmask, Nat.testBit_and, Nat.testBit_two_pow_sub_succ (by omega),
    Nat.testBit_two_pow_sub_one, Nat.testBit_mul_two_pow, Nat.testBit_div_two_pow,
    Nat.testBit_mod_two_pow]
  by_cases hi : k ≤ i
  · simp only [Nat.sub_add_cancel hi, hi, Nat.not_lt.mpr hi, decide_true, decide_false]
    simp [Bool.and_comm]
  · simp [hi, Nat.lt_of_not_le hi]

section
variable {w : Nat} (x y : BitVec w)

/-- A sum of words is the sum, or the sum less one turn of the word. -/
theorem toNat_add_cases :
    (x.toNat + y.toNat < 2 ^ w ∧ (x + y).toNat = x.toNat + y.toNat) ∨
      (2 ^ w ≤ x.toNat + y.toNat ∧ (x + y).toNat + 2 ^ w = x.toNat + y.toNat) := by
  have hx := x.isLt
  have hy := y.isLt
  rw [BitVec.toNat_add]
  cases Nat.lt_or_ge (x.toNat + y.toNat) (2 ^ w) with
  | inl h =>
    exact Or.inl ⟨h, Nat.mod_eq_of_lt h⟩
  | inr h =>
    refine Or.inr ⟨h, ?_⟩
    rw [Nat.mod_eq_sub_mod h, Nat.mod_eq_of_lt (by omega)]
    omega

theorem toNat_add_ofNat (n : Nat) : (x + BitVec.ofNat w n).toNat = (x.toNat + n) % 2 ^ w := by
  rw [BitVec.toNat_add, BitVec.toNat_ofNat, Nat.add_mod_mod]

theorem toNat_add_ofNat_of_lt {n : Nat} (h : x.toNat + n < 2 ^ w) :
    (x + BitVec.ofNat w n).toNat = x.toNat + n := by
  rw [toNat_add_ofNat, Nat.mod_eq_of_lt h]

/-- A difference of words is the difference, or one turn of the word too large. -/
theorem toNat_sub_cases :
    (y.toNat ≤ x.toNat ∧ (x - y).toNat = x.toNat - y.toNat) ∨
      (x.toNat < y.toNat ∧ (x - y).toNat + y.toNat = 2 ^ w + x.toNat) := by
  have hx := x.isLt
  have hy := y.isLt
  rw [BitVec.toNat_sub]
  cases Nat.lt_or_ge x.toNat y.toNat with
  | inl h =>
    refine Or.inr ⟨h, ?_⟩
    rw [Nat.mod_eq_of_lt (by omega)]
    omega
  | inr h =>
    refine Or.inl ⟨h, ?_⟩
    rw [Nat.mod_eq_sub_mod (by omega), Nat.mod_eq_of_lt (by omega)]
    omega

end

theorem div_mul_le_of_dvd {n d a : Nat} (hd : 0 < d) (hn : n ≤ a) (ha : d ∣ a) :
    (n + (d - 1)) / d * d ≤ a := by
  obtain ⟨c, rfl⟩ := ha
  have hlt : (n + (d - 1)) / d < c + 1 := by
    rw [Nat.div_lt_iff_lt_mul hd, Nat.add_mul, Nat.mul_comm c d]
    omega
  rw [Nat.mul_comm d c]
  exact Nat.mul_le_mul_right d (by omega)

theorem add_le_of_dvd_of_lt {d a b : Nat} (ha : d ∣ a) (hb : d ∣ b) (h : a < b) : a + d ≤ b := by
  have hle := Nat.le_of_dvd (Nat.sub_pos_of_lt h) (Nat.dvd_sub hb ha)
  omega

section RangeEnd
variable {w : Nat}

/-- Where a range ends, an end of zero standing for the top of the address space. -/
def rangeEnd (end_ : BitVec w) : Nat := if end_ = 0 then 2 ^ w else end_.toNat

def RangesApart (start end_ start' end_' : BitVec w) : Prop :=
  rangeEnd end_ ≤ start'.toNat ∨ rangeEnd end_' ≤ start.toNat

theorem rangeEnd_le (end_ : BitVec w) : rangeEnd end_ ≤ 2 ^ w := by
  simp only [rangeEnd]
  split
  · exact le_rfl
  · exact end_.isLt.le

theorem dvd_rangeEnd (end_ : BitVec w) {k : Nat} (hk : k ≤ w) :
    2 ^ k ∣ rangeEnd end_ ↔ 2 ^ k ∣ end_.toNat := by
  simp only [rangeEnd]
  split
  · next h =>
    subst h
    simpa using Nat.pow_dvd_pow 2 hk
  · rfl

theorem toNat_sub_one (end_ : BitVec w) (hw : 0 < w) : (end_ - 1).toNat = rangeEnd end_ - 1 := by
  have hone : (1 : BitVec w).toNat = 1 := by simpa using hw
  simp only [rangeEnd]
  split
  · next h =>
    have h0 : end_.toNat = 0 := by simp [h]
    rcases toNat_sub_cases end_ 1 with ⟨hle, -⟩ | ⟨-, hsub⟩
    · omega
    · omega
  · next h =>
    have hne : end_.toNat ≠ 0 := fun h0 => h (BitVec.eq_of_toNat_eq (by simpa using h0))
    rcases toNat_sub_cases end_ 1 with ⟨-, hsub⟩ | ⟨hlt, -⟩
    · rw [hsub, hone]
    · omega

end RangeEnd

section Masks
variable {w : Nat}

theorem toNat_lowMask {k : Nat} (hk : k ≤ w) : ((1#w <<< k) - 1).toNat = 2 ^ k - 1 := by
  cases Nat.eq_zero_or_pos w with
  | inl heq =>
    subst heq
    obtain rfl : k = 0 := by omega
    simp
  | inr hw =>
    have h1 : (1 : Nat) % 2 ^ w = 1 := Nat.mod_eq_of_lt (Nat.one_lt_two_pow (by omega))
    have hpos : 0 < 2 ^ k := Nat.two_pow_pos k
    rw [BitVec.toNat_sub, BitVec.toNat_shiftLeft, BitVec.ofNat_eq_ofNat, BitVec.toNat_ofNat, h1,
      Nat.one_shiftLeft]
    cases Nat.lt_or_ge k w with
    | inl hlt =>
      have hpow : 2 ^ k < 2 ^ w := Nat.pow_lt_pow_right (by decide) hlt
      rw [Nat.mod_eq_of_lt hpow, show 2 ^ w - 1 + 2 ^ k = 2 ^ w + (2 ^ k - 1) by omega,
        Nat.add_mod_left, Nat.mod_eq_of_lt (by omega)]
    | inr hge =>
      obtain rfl : k = w := by omega
      rw [Nat.mod_self, Nat.add_zero, Nat.mod_eq_of_lt (by omega)]

/-- Clearing the bits below `k` rounds down. -/
theorem toNat_and_not_lowMask (x : BitVec w) {k : Nat} (hk : k ≤ w) :
    (x &&& ~~~((1#w <<< k) - 1)).toNat = x.toNat / 2 ^ k * 2 ^ k := by
  have hpos : 0 < 2 ^ k := Nat.two_pow_pos k
  rw [BitVec.toNat_and, BitVec.toNat_not, toNat_lowMask hk,
    show 2 ^ w - 1 - (2 ^ k - 1) = 2 ^ w - 2 ^ k by omega, land_highMask _ hk,
    Nat.mod_eq_of_lt x.isLt]

theorem two_pow_ctz_dvd (x : BitVec w) : 2 ^ x.ctz.toNat ∣ x.toNat := by
  apply Nat.dvd_of_mod_eq_zero
  apply Nat.eq_of_testBit_eq
  intro i
  rw [Nat.testBit_mod_two_pow, Nat.zero_testBit]
  by_cases hi : i < x.ctz.toNat
  · have hbit := BitVec.getLsbD_false_of_lt_ctz hi
    simp only [BitVec.getLsbD] at hbit
    simp [hbit]
  · simp [hi]

theorem le_ctz_of_dvd {x : BitVec w} (hx : x ≠ 0) {k : Nat} (h : 2 ^ k ∣ x.toNat) :
    k ≤ x.ctz.toNat := by
  by_contra hlt
  have hbit : x.toNat.testBit x.ctz.toNat = true := BitVec.getLsbD_true_ctz_of_ne_zero hx
  obtain ⟨c, hc⟩ := h
  rw [hc, Nat.testBit_two_pow_mul] at hbit
  simp [hlt] at hbit

theorem dvd_or_iff (x y : BitVec w) (k : Nat) :
    2 ^ k ∣ (x ||| y).toNat ↔ 2 ^ k ∣ x.toNat ∧ 2 ^ k ∣ y.toNat := by
  rw [BitVec.toNat_or]
  simp only [Nat.dvd_iff_mod_eq_zero, Nat.or_mod_two_pow, Nat.or_eq_zero_iff]

/-- The words agree above their highest different bit, and not at that bit. -/
theorem div_eq_of_clz (x y : BitVec w) :
    x.toNat / 2 ^ (w - (x ^^^ y).clz.toNat) = y.toNat / 2 ^ (w - (x ^^^ y).clz.toNat) := by
  have h := BitVec.toNat_lt_two_pow_sub_clz (x := x ^^^ y)
  rw [BitVec.toNat_xor] at h
  have h0 := Nat.div_eq_of_lt h
  rw [← Nat.shiftRight_eq_div_pow, Nat.shiftRight_xor_distrib] at h0
  simp only [Nat.shiftRight_eq_div_pow] at h0
  exact Nat.xor_eq_zero_iff.mp h0

theorem div_ne_of_clz {x y : BitVec w} (hxy : x ≠ y) :
    x.toNat / 2 ^ (w - 1 - (x ^^^ y).clz.toNat) ≠ y.toNat / 2 ^ (w - 1 - (x ^^^ y).clz.toNat) := by
  intro heq
  have hw : 0 < w := by
    cases Nat.eq_zero_or_pos w with
    | inl heq =>
      subst heq
      exact absurd (Subsingleton.elim x y) hxy
    | inr hw =>
      exact hw
  have hne : x ^^^ y ≠ 0 := fun h => hxy (BitVec.xor_eq_zero_iff.mp h)
  have h := BitVec.two_pow_sub_clz_le_toNat_of_ne_zero hw hne
  have h0 : (x ^^^ y).toNat / 2 ^ (w - 1 - (x ^^^ y).clz.toNat) = 0 := by
    rw [BitVec.toNat_xor, ← Nat.shiftRight_eq_div_pow, Nat.shiftRight_xor_distrib]
    simp only [Nat.shiftRight_eq_div_pow] at heq ⊢
    rw [heq, Nat.xor_self]
  rw [Nat.div_eq_zero_iff_lt (Nat.two_pow_pos _)] at h0
  omega
end Masks
end Plo
