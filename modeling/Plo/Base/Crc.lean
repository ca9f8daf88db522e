import Mathlib.Algebra.Order.Ring.Nat
import Mathlib.Logic.Function.Iterate

/-!
Cyclic redundancy checks as shift registers. A register takes the bits of a
message one after the other, the low end first. A turn is linear in exclusive or,
and when the polynomial has its highest bit set a turn loses nothing; so an error
confined to no more bits than the register has leaves a trace.
-/
namespace Plo
variable {n : Nat} (poly : BitVec n)

/-- A turn of the register. -/
def lfsr (x : BitVec n) : BitVec n := (x >>> 1) ^^^ (if x.getLsbD 0 then poly else 0)

/-- The register after some bits of a message. -/
def crcBits (bits : List Bool) (x : BitVec n) : BitVec n :=
  bits.foldl (fun x b => lfsr poly (x ^^^ (BitVec.ofBool b).setWidth n)) x

section Turn

theorem lfsr_xor (x y : BitVec n) : lfsr poly (x ^^^ y) = lfsr poly x ^^^ lfsr poly y := by
  have hcancel : x >>> 1 ^^^ y >>> 1 = (x >>> 1 ^^^ poly) ^^^ (y >>> 1 ^^^ poly) := by
    rw [BitVec.xor_assoc, BitVec.xor_comm poly, BitVec.xor_assoc, BitVec.xor_self,
      BitVec.xor_zero]
  simp only [lfsr, BitVec.ushiftRight_xor_distrib, BitVec.getLsbD_xor]
  cases x.getLsbD 0 with
  | false =>
      cases y.getLsbD 0 with
      | false => simp
      | true => simp [BitVec.xor_assoc]
  | true =>
      cases y.getLsbD 0 with
      | false => simp [BitVec.xor_assoc, BitVec.xor_comm poly]
      | true => simpa using hcancel

theorem lfsr_zero : lfsr poly 0 = 0 := by simp [lfsr]

/-- Nothing is lost: the highest bit of the result tells what the lowest bit was. -/
theorem lfsr_ne_zero (hpoly : poly.getLsbD (n - 1) = true) {x : BitVec n} (hx : x ≠ 0) :
    lfsr poly x ≠ 0 := by
  intro hzero
  have hbit (i : Nat) : (lfsr poly x).getLsbD i = false := by simp [hzero]
  simp only [lfsr, BitVec.getLsbD_xor, BitVec.getLsbD_ushiftRight] at hbit
  cases hlow : x.getLsbD 0 with
  | true =>
      have hn : 0 < n := by
        by_contra h0
        rw [BitVec.getLsbD_of_ge poly (n - 1) (by omega)] at hpoly
        cases hpoly
      have htop := hbit (n - 1)
      rw [BitVec.getLsbD_of_ge x (1 + (n - 1)) (by omega)] at htop
      simp [hlow, hpoly] at htop
  | false =>
      refine hx (BitVec.eq_of_getLsbD_eq ?_)
      intro i _
      cases i with
      | zero => simpa using hlow
      | succ i => simpa [hlow, Nat.add_comm 1 i] using hbit i

theorem iterate_lfsr_xor (k : Nat) (x y : BitVec n) :
    (lfsr poly)^[k] (x ^^^ y) = (lfsr poly)^[k] x ^^^ (lfsr poly)^[k] y := by
  induction k generalizing x y with
  | zero => rfl
  | succ k ih => simp only [Function.iterate_succ_apply, lfsr_xor, ih]

theorem iterate_lfsr_zero (k : Nat) : (lfsr poly)^[k] 0 = 0 := Function.iterate_fixed (lfsr_zero poly) k

theorem iterate_lfsr_ne_zero (hpoly : poly.getLsbD (n - 1) = true) (k : Nat) {x : BitVec n}
    (hx : x ≠ 0) : (lfsr poly)^[k] x ≠ 0 := by
  induction k generalizing x with
  | zero => exact hx
  | succ k ih => exact ih (lfsr_ne_zero poly hpoly hx)

theorem iterate_lfsr_inj (hpoly : poly.getLsbD (n - 1) = true) (k : Nat) {x y : BitVec n}
    (h : (lfsr poly)^[k] x = (lfsr poly)^[k] y) : x = y := by
  by_contra hne
  have hxor : x ^^^ y ≠ 0 := fun h0 => hne (BitVec.xor_eq_zero_iff.mp h0)
  refine iterate_lfsr_ne_zero poly hpoly k hxor ?_
  rw [iterate_lfsr_xor, h]
  exact BitVec.xor_self

/-- Zeros at the low end are shifted out. -/
theorem iterate_lfsr_of_low_zero {k : Nat} {x : BitVec n} (hlow : ∀ i < k, x.getLsbD i = false) :
    (lfsr poly)^[k] x = x >>> k := by
  induction k generalizing x with
  | zero => exact (BitVec.ushiftRight_zero x).symm
  | succ k ih =>
      have hturn : lfsr poly x = x >>> 1 := by
        rw [lfsr, hlow 0 (Nat.succ_pos k), if_neg Bool.false_ne_true]
        exact BitVec.xor_zero
      have hnext (i : Nat) (hi : i < k) : (x >>> 1).getLsbD i = false := by
        rw [BitVec.getLsbD_ushiftRight]
        exact hlow (1 + i) (by omega)
      rw [Function.iterate_succ_apply, hturn, ih hnext, ← BitVec.shiftRight_add, Nat.add_comm 1 k]

/-- Several turns at once: what the low bits alone become, and the others moved down. -/
theorem iterate_lfsr_low (k : Nat) (x : BitVec n) :
    (lfsr poly)^[k] x = x >>> k ^^^ (lfsr poly)^[k] (x &&& BitVec.ofNat n (2 ^ k - 1)) := by
  have hsplit : x = (x &&& ~~~BitVec.ofNat n (2 ^ k - 1)) ^^^ (x &&& BitVec.ofNat n (2 ^ k - 1)) := by
    refine BitVec.eq_of_getLsbD_eq ?_
    intro i hi
    simp only [BitVec.getLsbD_xor, BitVec.getLsbD_and, BitVec.getLsbD_not, hi, decide_true,
      Bool.true_and]
    cases x.getLsbD i <;> cases (BitVec.ofNat n (2 ^ k - 1)).getLsbD i <;> rfl
  have hmask (i : Nat) : (BitVec.ofNat n (2 ^ k - 1)).getLsbD i = (decide (i < n) && decide (i < k)) := by
    rw [BitVec.getLsbD_ofNat, Nat.testBit_two_pow_sub_one]
  have hlow : ∀ i < k, (x &&& ~~~BitVec.ofNat n (2 ^ k - 1)).getLsbD i = false := by
    intro i hi
    rw [BitVec.getLsbD_and, BitVec.getLsbD_not, hmask]
    simp [hi]
  have hshift : (x &&& ~~~BitVec.ofNat n (2 ^ k - 1)) >>> k = x >>> k := by
    refine BitVec.eq_of_getLsbD_eq ?_
    intro i _
    rw [BitVec.getLsbD_ushiftRight, BitVec.getLsbD_ushiftRight, BitVec.getLsbD_and,
      BitVec.getLsbD_not, hmask]
    by_cases hi : k + i < n
    · simp [hi]
    · simp [BitVec.getLsbD_of_ge x (k + i) (by omega)]
  rw [← hshift, ← iterate_lfsr_of_low_zero poly hlow, ← iterate_lfsr_xor, ← hsplit]

end Turn

section Bits

/-- The word of some bits, the first one lowest. -/
def bitsWord (bits : List Bool) : BitVec n := (BitVec.ofBoolListLE bits).setWidth n

theorem getLsbD_bitsWord (bits : List Bool) {i : Nat} (hi : i < n) :
    (bitsWord bits : BitVec n).getLsbD i = bits.getD i false := by
  simp [bitsWord, hi]

theorem crcBits_append (bits bits' : List Bool) (x : BitVec n) :
    crcBits poly (bits ++ bits') x = crcBits poly bits' (crcBits poly bits x) :=
  List.foldl_append

/-- Bits that fit the register may be put into it at once. -/
theorem crcBits_eq {bits : List Bool} (hlen : bits.length ≤ n) (x : BitVec n) :
    crcBits poly bits x = (lfsr poly)^[bits.length] (x ^^^ bitsWord bits) := by
  induction bits generalizing x with
  | nil =>
      have hzero : (bitsWord [] : BitVec n) = 0 := by
        refine BitVec.eq_of_getLsbD_eq ?_
        intro i hi
        simp [getLsbD_bitsWord _ hi]
      simp only [crcBits, List.foldl_nil, List.length_nil, Function.iterate_zero, id_eq, hzero]
      exact BitVec.xor_zero.symm
  | cons b bits ih =>
      rw [List.length_cons] at hlen
      have hword : (bitsWord (b :: bits) : BitVec n) =
          (BitVec.ofBool b).setWidth n ^^^ (bitsWord bits <<< 1) := by
        refine BitVec.eq_of_getLsbD_eq ?_
        intro i hi
        rw [getLsbD_bitsWord _ hi]
        cases i with
        | zero => simp [hi]
        | succ i =>
            have hi' : i < n := by omega
            simp [hi, ← BitVec.getLsbD_eq_getElem hi', getLsbD_bitsWord bits hi']
      have hshift : lfsr poly (bitsWord bits <<< 1) = bitsWord bits := by
        refine BitVec.eq_of_getLsbD_eq ?_
        intro i hi
        have hlow : (bitsWord bits <<< 1 : BitVec n).getLsbD 0 = false := by simp
        simp only [lfsr, hlow, Bool.false_eq_true, if_false]
        by_cases htop : 1 + i < n
        · simp [htop, BitVec.getLsbD_eq_getElem hi]
        · have hout : bits.length ≤ i := by omega
          simp [htop, getLsbD_bitsWord bits hi, List.getElem?_eq_none hout]
      have hcons : crcBits poly (b :: bits) x =
          crcBits poly bits (lfsr poly (x ^^^ (BitVec.ofBool b).setWidth n)) := rfl
      rw [hcons, ih (by omega), List.length_cons, Function.iterate_succ_apply, hword,
        ← BitVec.xor_assoc, lfsr_xor poly _ (bitsWord bits <<< 1), hshift]

theorem crcBits_xor {ι : Type} (l : List ι) (f g : ι → Bool) (x y : BitVec n) :
    crcBits poly (l.map fun k => f k ^^ g k) (x ^^^ y) =
      crcBits poly (l.map f) x ^^^ crcBits poly (l.map g) y := by
  induction l generalizing x y with
  | nil => rfl
  | cons k l ih =>
      have hbit : (x ^^^ y) ^^^ (BitVec.ofBool (f k ^^ g k)).setWidth n =
          (x ^^^ (BitVec.ofBool (f k)).setWidth n) ^^^ (y ^^^ (BitVec.ofBool (g k)).setWidth n) := by
        refine BitVec.eq_of_getLsbD_eq ?_
        intro i hi
        simp only [BitVec.getLsbD_xor, BitVec.getLsbD_setWidth, BitVec.getLsbD_ofBool, hi,
          decide_true, Bool.true_and]
        cases decide (i = 0) <;> cases f k <;> cases g k <;> cases x.getLsbD i <;>
          cases y.getLsbD i <;> rfl
      have hcons (h : ι → Bool) (z : BitVec n) : crcBits poly ((k :: l).map h) z =
          crcBits poly (l.map h) (lfsr poly (z ^^^ (BitVec.ofBool (h k)).setWidth n)) := rfl
      rw [hcons, hcons, hcons, hbit, lfsr_xor, ih]

theorem crcBits_false {bits : List Bool} (h : ∀ b ∈ bits, b = false) (x : BitVec n) :
    crcBits poly bits x = (lfsr poly)^[bits.length] x := by
  induction bits generalizing x with
  | nil => rfl
  | cons b bits ih =>
      have hb := h b List.mem_cons_self
      have hcons : crcBits poly (b :: bits) x =
          crcBits poly bits (lfsr poly (x ^^^ (BitVec.ofBool b).setWidth n)) := rfl
      have hzero : (BitVec.ofBool false).setWidth n = 0 := by simp
      rw [hcons, ih fun c hc => h c (List.mem_cons_of_mem b hc), hb, hzero, List.length_cons,
        Function.iterate_succ_apply]
      exact congrArg _ (congrArg _ BitVec.xor_zero)

/-- An error burst no longer than the register is not lost. -/
theorem crcBits_burst (hpoly : poly.getLsbD (n - 1) = true) (before burst after : List Bool)
    (hbefore : ∀ b ∈ before, b = false) (hafter : ∀ b ∈ after, b = false)
    (hlen : burst.length ≤ n) (hset : true ∈ burst) :
    crcBits poly (before ++ burst ++ after) 0 ≠ 0 := by
  rw [crcBits_append, crcBits_append, crcBits_false poly hbefore, iterate_lfsr_zero,
    crcBits_eq poly hlen, crcBits_false poly hafter]
  refine iterate_lfsr_ne_zero poly hpoly _ (iterate_lfsr_ne_zero poly hpoly _ ?_)
  intro hzero
  obtain ⟨i, hi, hbit⟩ := List.getElem_of_mem hset
  have hword := getLsbD_bitsWord (n := n) burst (show i < n by omega)
  rw [BitVec.ofNat_eq_ofNat, BitVec.zero_xor] at hzero
  rw [hzero] at hword
  simp [hi, hbit] at hword

end Bits

end Plo
