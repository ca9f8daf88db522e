import Plo.Hal.MpuEntry

/-!
The arithmetic of a range in `mpu_regionGenerate`: its size, the trailing zeroes
of its ends, and the highest bit in which its first and last address differ, all
read as statements about quotients by powers of two.
-/
namespace Plo.Hal

section Range
variable {start end_ : BitVec 32}

theorem lt_rangeEnd (hvalid : ¬ (end_ ≠ 0 ∧ end_ ≤ start)) : start.toNat < rangeEnd end_ := by
  simp only [rangeEnd]
  split
  · exact start.isLt
  · next h => exact BitVec.lt_def.mp (BitVec.not_le.mp fun hle => hvalid ⟨h, hle⟩)

theorem eq_zero_of_size_eq_zero (hvalid : ¬ (end_ ≠ 0 ∧ end_ ≤ start)) (h : end_ - start = 0) :
    start = 0 ∧ end_ = 0 := by
  have heq : end_ = start := by bv_omega
  subst heq
  have h0 : end_ = 0 := by
    by_contra hne
    exact hvalid ⟨hne, BitVec.le_refl end_⟩
  exact ⟨h0, h0⟩

theorem toNat_size (hvalid : ¬ (end_ ≠ 0 ∧ end_ ≤ start)) (h : end_ - start ≠ 0) :
    (end_ - start).toNat = rangeEnd end_ - start.toNat := by
  have hlt := lt_rangeEnd hvalid
  have hend := end_.isLt
  simp only [rangeEnd] at hlt ⊢
  split at hlt
  · next h0 =>
    have hz : end_.toNat = 0 := by simp [h0]
    have hne : start.toNat ≠ 0 := by
      intro hs
      apply h
      rw [BitVec.eq_of_toNat_eq (hs.trans hz.symm), BitVec.sub_self]
      rfl
    rw [if_pos h0]
    rcases toNat_sub_cases end_ start with ⟨hle, -⟩ | ⟨-, hsub⟩ <;> omega
  · next h0 =>
    rw [if_neg h0]
    rcases toNat_sub_cases end_ start with ⟨-, hsub⟩ | ⟨hlt', -⟩ <;> omega

theorem aligned_size (hvalid : ¬ (end_ ≠ 0 ∧ end_ ≤ start)) (h : end_ - start ≠ 0)
    (hpow : end_ - start = 1#32 <<< (end_ - start).ctz.toNat)
    (hal : start &&& (end_ - start - 1) = 0) :
    (end_ - start).ctz.toNat < 32 ∧ 2 ^ (end_ - start).ctz.toNat ∣ start.toNat ∧
      rangeEnd end_ = start.toNat + 2 ^ (end_ - start).ctz.toNat := by
  set k := (end_ - start).ctz.toNat with hk
  have hk32 : k < 32 := by
    by_contra hge
    apply h
    rw [hpow]
    exact BitVec.shiftLeft_eq_zero (by omega)
  have hsize : (end_ - start).toNat = 2 ^ k := by
    rw [hpow, BitVec.toNat_shiftLeft, Nat.shiftLeft_eq]
    have := Nat.pow_lt_pow_right (by decide : 1 < 2) hk32
    simpa using this
  have hmod : start.toNat % 2 ^ k = 0 := by
    have hand := congrArg BitVec.toNat hal
    rw [hpow, BitVec.toNat_and, toNat_lowMask hk32.le, Nat.and_two_pow_sub_one_eq_mod] at hand
    simpa using hand
  refine ⟨hk32, Nat.dvd_of_mod_eq_zero hmod, ?_⟩
  have hlt := lt_rangeEnd hvalid
  have := toNat_size hvalid h
  omega

theorem aligned_covers (idx : Nat) {attr : BitVec 32} {k : Nat} (hattr : AttrBits attr)
    (hk : 5 ≤ k) (hk' : k ≤ 32) (hs : 2 ^ k ∣ start.toNat) (a : BitVec 32) :
    (regionEntry idx start 0 k attr).Covers a ↔
      attr.getLsbD 0 = true ∧ start.toNat ≤ a.toNat ∧ a.toNat < start.toNat + 2 ^ k := by
  have hpos : 0 < 2 ^ k := Nat.two_pow_pos k
  obtain ⟨c, hc⟩ := hs
  rw [covers_entry_iff _ _ _ _ hattr hk hk']
  refine and_congr_right fun _ => ?_
  rw [hc, Nat.mul_div_cancel_left c hpos]
  simp only [BitVec.ofNat_eq_ofNat, BitVec.getLsbD_zero, and_true]
  rw [Nat.div_eq_iff hpos, Nat.mul_comm]
  omega

end Range

/-- The three ranges between multiples of 1 GiB that are no aligned power of two. -/
def WideRange (start end_ : BitVec 32) : Prop :=
  (start = 0 ∧ end_ = 0xc0000000) ∨ (start = 0x40000000 ∧ end_ = 0xc0000000) ∨
    (start = 0x40000000 ∧ end_ = 0)

instance (start end_ : BitVec 32) : Decidable (WideRange start end_) :=
  inferInstanceAs (Decidable (_ ∨ _ ∨ _))

section Blocks
variable {start end_ : BitVec 32}

theorem gib_cases (x : BitVec 32) (h : 2 ^ 30 ∣ x.toNat) :
    x = 0 ∨ x = 0x40000000 ∨ x = 0x80000000 ∨ x = 0xc0000000 := by
  obtain ⟨c, hc⟩ := h
  have hx := x.isLt
  have hc4 : c = 0 ∨ c = 1 ∨ c = 2 ∨ c = 3 := by omega
  rcases hc4 with rfl | rfl | rfl | rfl
  · exact Or.inl (BitVec.eq_of_toNat_eq hc)
  · exact Or.inr (Or.inl (BitVec.eq_of_toNat_eq hc))
  · exact Or.inr (Or.inr (Or.inl (BitVec.eq_of_toNat_eq hc)))
  · exact Or.inr (Or.inr (Or.inr (BitVec.eq_of_toNat_eq hc)))

/-- Only the wide ranges have thirty trailing zeroes and are left to the masks. -/
theorem ctz_lt_thirty (hvalid : ¬ (end_ ≠ 0 ∧ end_ ≤ start)) (hsize : end_ - start ≠ 0)
    (hpow : ¬ (end_ - start = 1#32 <<< (end_ - start).ctz.toNat ∧
      start &&& (end_ - start - 1) = 0)) (hwide : ¬ WideRange start end_) :
    (start ||| end_).ctz.toNat < 30 := by
  by_contra hge
  have hdvd : 2 ^ 30 ∣ (start ||| end_).toNat :=
    (Nat.pow_dvd_pow 2 (by omega)).trans (two_pow_ctz_dvd _)
  rw [dvd_or_iff] at hdvd
  rcases gib_cases start hdvd.1 with rfl | rfl | rfl | rfl <;>
    rcases gib_cases end_ hdvd.2 with rfl | rfl | rfl | rfl <;>
    revert hvalid hsize hpow hwide <;> decide +kernel

theorem div_eq_of_le {x y c k : Nat} (h : x / 2 ^ c = y / 2 ^ c) (hck : c ≤ k) :
    x / 2 ^ k = y / 2 ^ k := by
  obtain ⟨d, rfl⟩ := Nat.exists_eq_add_of_le hck
  rw [Nat.pow_add, ← Nat.div_div_eq_div_mul, ← Nat.div_div_eq_div_mul, h]

theorem rangeEnd_next (x : BitVec 32) {k : Nat} (hk : k ≤ 32) :
    rangeEnd ((x &&& ~~~((1#32 <<< k) - 1)) + ((1#32 <<< k) - 1) + 1) =
      (x.toNat / 2 ^ k + 1) * 2 ^ k := by
  have hpos : 0 < 2 ^ k := Nat.two_pow_pos k
  have hle : (x.toNat / 2 ^ k + 1) * 2 ^ k ≤ 2 ^ 32 := by
    have hpow : 2 ^ (32 - k) * 2 ^ k = 2 ^ 32 := by rw [← Nat.pow_add, Nat.sub_add_cancel hk]
    rw [← hpow]
    exact Nat.mul_le_mul_right _ ((Nat.div_lt_iff_lt_mul hpos).mpr (hpow ▸ x.isLt))
  have hval : ((x &&& ~~~((1#32 <<< k) - 1)) + ((1#32 <<< k) - 1) + 1).toNat =
      (x.toNat / 2 ^ k + 1) * 2 ^ k % 2 ^ 32 := by
    rw [BitVec.toNat_add, BitVec.toNat_add, toNat_and_not_lowMask x hk, toNat_lowMask hk,
      show (1 : BitVec 32).toNat = 1 by rfl, Nat.mod_add_mod, Nat.add_mul]
    congr 1
    omega
  have hne : 0 < (x.toNat / 2 ^ k + 1) * 2 ^ k := Nat.mul_pos (Nat.succ_pos _) hpos
  simp only [rangeEnd]
  split
  · next h0 =>
    have hz : (x.toNat / 2 ^ k + 1) * 2 ^ k % 2 ^ 32 = 0 := by rw [← hval, h0]; rfl
    omega
  · next h0 =>
    have hz : (x.toNat / 2 ^ k + 1) * 2 ^ k % 2 ^ 32 ≠ 0 := by
      rw [← hval]
      exact fun h => h0 (BitVec.eq_of_toNat_eq h)
    rw [hval]
    omega

theorem toNat_of_rangeEnd_lt {x : BitVec 32} (h : rangeEnd x < 2 ^ 32) : x.toNat = rangeEnd x := by
  simp only [rangeEnd] at h ⊢
  split at h
  · omega
  · next h0 => rw [if_neg h0]

/-- What the trailing zeroes and the highest different bit say about a range. -/
structure Bits (start end_ : BitVec 32) (t c : Nat) : Prop where
  lt : start.toNat < rangeEnd end_
  start_dvd : 2 ^ t ∣ start.toNat
  end_dvd : 2 ^ t ∣ rangeEnd end_
  le_t : ∀ k, k ≤ 32 → 2 ^ k ∣ start.toNat → 2 ^ k ∣ rangeEnd end_ → k ≤ t
  five_le : 5 ≤ t
  le_32 : c ≤ 32
  block : start.toNat / 2 ^ c = (rangeEnd end_ - 1) / 2 ^ c
  split : start.toNat / 2 ^ (c - 1) ≠ (rangeEnd end_ - 1) / 2 ^ (c - 1)

theorem bits_of_range (hvalid : ¬ (end_ ≠ 0 ∧ end_ ≤ start)) (hsize : end_ - start ≠ 0)
    (h5 : ¬ (start ||| end_).ctz.toNat < 5) :
    Bits start end_ (start ||| end_).ctz.toNat (32 - (start ^^^ (end_ - 1)).clz.toNat) := by
  have hne : start ||| end_ ≠ 0 := by
    intro h0
    obtain ⟨rfl, rfl⟩ := BitVec.or_eq_zero_iff.mp h0
    exact hsize rfl
  have h32 : (start ||| end_).ctz.toNat ≤ 32 := by
    have := BitVec.lt_def.mp (BitVec.ctz_lt_iff_ne_zero.mpr hne)
    simp at this
    omega
  have hdvd := (dvd_or_iff start end_ _).mp (two_pow_ctz_dvd (start ||| end_))
  have hlast := toNat_sub_one end_ (by decide)
  have hend := (dvd_rangeEnd end_ h32).mpr hdvd.2
  refine ⟨lt_rangeEnd hvalid, hdvd.1, hend, ?_, by omega, by omega, ?_, ?_⟩
  · intro k hk hs he
    exact le_ctz_of_dvd hne ((dvd_or_iff _ _ _).mpr ⟨hs, (dvd_rangeEnd end_ hk).mp he⟩)
  · rw [← hlast]
    exact div_eq_of_clz start (end_ - 1)
  · rw [← hlast, show 32 - (start ^^^ (end_ - 1)).clz.toNat - 1 =
      32 - 1 - (start ^^^ (end_ - 1)).clz.toNat by omega]
    refine div_ne_of_clz ?_
    intro heq
    have h2s : 2 ∣ start.toNat := (dvd_pow_self 2 (by omega)).trans hdvd.1
    have h2e : 2 ∣ rangeEnd end_ := (dvd_pow_self 2 (by omega)).trans hend
    have hlt := lt_rangeEnd hvalid
    have := congrArg BitVec.toNat heq
    omega

end Blocks

end Plo.Hal
