import Plo.Base.Word
import Plo.Hal.Mpu

/-!
What one stored region covers. The register fields are read back from the words
`mpu_regionSet` puts together, and a range of whole eighths inside one block is
shown to be covered exactly by the mask `mpu_regionCalculateAndSet` computes.
-/
namespace Plo.Hal

section Entry
variable (idx : Nat) (base : BitVec 32) (srd : BitVec 8) (k : Nat) {attr : BitVec 32}

/-- Attribute bits leave the mask and the size to `mpu_regionSet`. -/
def AttrBits (attr : BitVec 32) : Prop := ∀ i < 16, 1 ≤ i → attr.getLsbD i = false

theorem rasr_entry_bit (i : Nat) (hi : i < 32) :
    (regionEntry idx base srd k attr).rasr.getLsbD i =
      (attr.getLsbD i || (decide (8 ≤ i) && srd.getLsbD (i - 8)) ||
        (decide (1 ≤ i ∧ i < 6) && (BitVec.ofNat 32 k - 1).getLsbD (i - 1))) := by
  have hmask : (0x1f#32).getLsbD (i - 1) = decide (i - 1 < 5) :=
    Nat.testBit_two_pow_sub_one 5 (i - 1)
  simp only [regionEntry, BitVec.getLsbD_or, BitVec.getLsbD_shiftLeft, BitVec.getLsbD_setWidth,
    BitVec.getLsbD_and, hi, decide_true, Bool.true_and]
  by_cases h1 : i < 1
  · obtain rfl : i = 0 := by omega
    simp
  · have h3 : (i - 1 < 5) ↔ i < 6 := by omega
    have h4 : 1 ≤ i := by omega
    by_cases h8 : i < 8
    · simp [h8, h1, hmask, h3, h4, Bool.and_comm, Nat.not_le.mpr h8]
    · have h6 : ¬ i < 6 := by omega
      have h9 : i - 8 < 32 := by omega
      simp [h8, h1, hmask, h3, h6, h9, Nat.le_of_not_lt h8]

theorem accessBits_entry (attr : BitVec 32) :
    accessBits (regionEntry idx base srd k attr).rasr = accessBits attr := by
  have hbit (i : Nat) (hi : 16 ≤ i) (hi' : i < 32) :
      (regionEntry idx base srd k attr).rasr.getLsbD i = attr.getLsbD i := by
    have h6 : ¬ i < 6 := by omega
    rw [rasr_entry_bit _ _ _ _ _ hi', BitVec.getLsbD_of_ge srd (i - 8) (by omega)]
    simp [h6]
  have hfield (j : Nat) (hj : 16 ≤ j) (hj' : j + 3 ≤ 32) :
      (regionEntry idx base srd k attr).rasr.extractLsb' j 3 = attr.extractLsb' j 3 := by
    apply BitVec.eq_of_getLsbD_eq
    intro i hi
    simp only [BitVec.getLsbD_extractLsb', hi, decide_true, Bool.true_and]
    exact hbit _ (by omega) (by omega)
  simp only [accessBits, hbit 28 (by decide) (by decide), hbit 18 (by decide) (by decide),
    hbit 17 (by decide) (by decide), hbit 16 (by decide) (by decide),
    hfield 24 (by decide) (by decide), hfield 19 (by decide) (by decide)]

theorem enabled_entry (attr : BitVec 32) :
    (regionEntry idx base srd k attr).enabled = attr.getLsbD 0 := by
  rw [MpuRegion.enabled, rasr_entry_bit _ _ _ _ _ (by decide)]
  simp

theorem srd_entry (h : AttrBits attr) : (regionEntry idx base srd k attr).srd = srd := by
  apply BitVec.eq_of_getLsbD_eq
  intro i hi
  have h6 : ¬ 8 + i < 6 := by omega
  rw [MpuRegion.srd, BitVec.getLsbD_extractLsb', rasr_entry_bit _ _ _ _ _ (by omega),
    h (8 + i) (by omega) (by omega)]
  simp [hi, h6]

theorem sizeField_entry (h : AttrBits attr) :
    (regionEntry idx base srd k attr).rasr.extractLsb' 1 5 =
      (BitVec.ofNat 32 k - 1).setWidth 5 := by
  apply BitVec.eq_of_getLsbD_eq
  intro i hi
  have h8 : ¬ 8 ≤ 1 + i := by omega
  have h6 : 1 + i < 6 := by omega
  rw [BitVec.getLsbD_extractLsb', rasr_entry_bit _ _ _ _ _ (by omega),
    h (1 + i) (by omega) (by omega), BitVec.getLsbD_setWidth]
  simp [hi, h8, h6]

theorem sizeBit_entry (h : AttrBits attr) (hk : 1 ≤ k) (hk' : k ≤ 32) :
    (regionEntry idx base srd k attr).sizeBit = k := by
  have hone : (1 : BitVec 32).toNat = 1 := rfl
  have hle : (1 : BitVec 32) ≤ BitVec.ofNat 32 k := by
    rw [BitVec.le_def, hone, BitVec.toNat_ofNat]
    omega
  rw [MpuRegion.sizeBit, sizeField_entry idx base srd k h, BitVec.toNat_setWidth,
    BitVec.toNat_sub_of_le hle, BitVec.toNat_ofNat, hone]
  omega

theorem rbar_entry_div (hk : 5 ≤ k) (attr : BitVec 32) :
    (regionEntry idx base srd k attr).rbar.toNat / 2 ^ k = base.toNat / 2 ^ k := by
  have hlow : ((1#32 <<< 4) ||| (BitVec.ofNat 32 idx &&& 0xf)).toNat < 2 ^ k := by
    have hand : (BitVec.ofNat 32 idx &&& 0xf).toNat < 2 ^ 5 := by
      rw [BitVec.toNat_and]
      exact lt_of_le_of_lt Nat.and_le_right (by decide)
    rw [BitVec.toNat_or]
    exact lt_of_lt_of_le (Nat.or_lt_two_pow (by decide) hand)
      (Nat.pow_le_pow_right (by decide) hk)
  simp only [regionEntry, BitVec.or_assoc]
  rw [BitVec.toNat_or, ← Nat.shiftRight_eq_div_pow, Nat.shiftRight_or_distrib,
    Nat.shiftRight_eq_div_pow, Nat.shiftRight_eq_div_pow, Nat.div_eq_of_lt hlow, Nat.or_zero]

theorem rbar_entry_valid (attr : BitVec 32) :
    (regionEntry idx base srd k attr).rbar &&& 0x10 ≠ 0 := by
  intro h
  have hbit := congrArg (fun x => BitVec.getLsbD x 4) h
  simp [regionEntry] at hbit

theorem covers_entry_iff (h : AttrBits attr) (hk : 5 ≤ k) (hk' : k ≤ 32) (a : BitVec 32) :
    (regionEntry idx base srd k attr).Covers a ↔
      attr.getLsbD 0 = true ∧ a.toNat / 2 ^ k = base.toNat / 2 ^ k ∧
        srd.getLsbD (a.toNat % 2 ^ k * 8 / 2 ^ k) = false := by
  simp only [MpuRegion.Covers, MpuRegion.subregion, enabled_entry, srd_entry _ _ _ _ h,
    sizeBit_entry _ _ _ _ h (by omega : 1 ≤ k) hk', rbar_entry_div _ _ _ _ hk]

end Entry

theorem srdMask_bit : ∀ s < 8, ∀ e ≤ 8, ∀ j < 8,
    (srdMask s e).getLsbD j = !decide (s ≤ j ∧ j < e) := by
  decide

theorem mem_block_iff {q S E a : Nat} (hq : 0 < q) (hS : q ∣ S) (hE : q ∣ E) (hlt : S < E)
    (hblock : S / (8 * q) = (E - 1) / (8 * q)) :
    (a / (8 * q) = S / (8 * q) ∧ S / q % 8 ≤ a / q % 8 ∧
        a / q % 8 < if E / q % 8 = 0 then 8 else E / q % 8) ↔ S ≤ a ∧ a < E := by
  obtain ⟨s, rfl⟩ := hS
  obtain ⟨e, rfl⟩ := hE
  have hse : s < e := Nat.lt_of_mul_lt_mul_left hlt
  have hlast : (q * e - 1) / q = e - 1 := by
    rw [Nat.div_eq_iff hq]
    constructor
    · rw [Nat.sub_mul, Nat.mul_comm q e]
      omega
    · rw [Nat.sub_mul, Nat.mul_comm q e]
      have := Nat.mul_le_mul_right q (by omega : 1 ≤ e)
      omega
  have hle : q * s ≤ a ↔ s ≤ a / q := by rw [Nat.le_div_iff_mul_le hq, Nat.mul_comm]
  have hlt' : a < q * e ↔ a / q < e := by rw [Nat.div_lt_iff_lt_mul hq, Nat.mul_comm]
  have hd (x : Nat) : x / (8 * q) = x / q / 8 := by rw [Nat.mul_comm, Nat.div_div_eq_div_mul]
  rw [hle, hlt']
  rw [hd, hd, Nat.mul_div_cancel_left s hq, hlast] at hblock
  rw [hd, hd, Nat.mul_div_cancel_left s hq, Nat.mul_div_cancel_left e hq]
  split <;> omega

/-- `mpu_regionCalculateAndSet` covers a range of whole eighths of one block exactly. -/
theorem covers_calculated (idx : Nat) {start end_ attr : BitVec 32} {k : Nat} (h : AttrBits attr)
    (hk : 8 ≤ k) (hk' : k ≤ 32) (hs : 2 ^ (k - 3) ∣ start.toNat)
    (he : 2 ^ (k - 3) ∣ rangeEnd end_) (hlt : start.toNat < rangeEnd end_)
    (hblock : start.toNat / 2 ^ k = (rangeEnd end_ - 1) / 2 ^ k) (a : BitVec 32) :
    (regionEntry idx (start &&& ~~~((1#32 <<< k) - 1))
        (srdMask ((start >>> (k - 3)) &&& 7).toNat
          (if ((end_ >>> (k - 3)) &&& 7).toNat = 0 then 8
            else ((end_ >>> (k - 3)) &&& 7).toNat)) k attr).Covers a ↔
      attr.getLsbD 0 = true ∧ start.toNat ≤ a.toNat ∧ a.toNat < rangeEnd end_ := by
  have hpow : 2 ^ k = 8 * 2 ^ (k - 3) := by
    rw [show (8 : Nat) = 2 ^ 3 by rfl, ← Nat.pow_add]
    congr 1
    omega
  have hq : 0 < 2 ^ (k - 3) := Nat.two_pow_pos _
  have hand7 (x : BitVec 32) : ((x >>> (k - 3)) &&& 7).toNat = x.toNat / 2 ^ (k - 3) % 8 := by
    rw [BitVec.toNat_and, BitVec.toNat_ushiftRight, Nat.shiftRight_eq_div_pow]
    exact Nat.and_two_pow_sub_one_eq_mod _ 3
  have hend : end_.toNat / 2 ^ (k - 3) % 8 = rangeEnd end_ / 2 ^ (k - 3) % 8 := by
    simp only [rangeEnd]
    split
    · next h0 =>
      subst h0
      obtain ⟨c, hc⟩ : 8 ∣ 2 ^ 32 / 2 ^ (k - 3) := by
        rw [Nat.pow_div (by omega) (by decide)]
        exact Nat.pow_dvd_pow 2 (by omega : 3 ≤ 32 - (k - 3))
      rw [hc]
      simp
    · rfl
  have hsub : a.toNat % 2 ^ k * 8 / 2 ^ k = a.toNat / 2 ^ (k - 3) % 8 := by
    rw [hpow, Nat.mul_comm _ 8, Nat.mul_div_mul_left _ _ (by decide : 0 < 8), Nat.mul_comm 8,
      Nat.mod_mul_right_div_self]
  have hsend : (if rangeEnd end_ / 2 ^ (k - 3) % 8 = 0 then 8
      else rangeEnd end_ / 2 ^ (k - 3) % 8) ≤ 8 := by
    split <;> omega
  rw [covers_entry_iff _ _ _ _ h (by omega) hk', toNat_and_not_lowMask _ hk', hsub, hand7, hand7,
    hend, srdMask_bit _ (by omega) _ hsend _ (by omega), Nat.mul_div_cancel _ (Nat.two_pow_pos k),
    ← mem_block_iff (a := a.toNat) hq hs he hlt (by rw [← hpow]; exact hblock), hpow]
  simp

end Plo.Hal
