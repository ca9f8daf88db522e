import Plo.Devices.FlashImxrt

/-!
What the buffer of the flash driver stands for. The content the driver shows is
the buffer on its own sector and the chip elsewhere; a call keeps that content,
or writes over it, as long as no sector that must become all ones is left
unerased on the chip.
-/
namespace Plo.Devices

/-- The content the driver stands for. -/
def NorDevice.view (nor : NorInfo) (dev : NorDevice) (a : Nat) : UInt8 :=
  if a / nor.sectorSz = dev.sectorPrevAddr / nor.sectorSz then dev.sectorBuf (a % nor.sectorSz)
  else dev.chip a

def ErasedOn (nor : NorInfo) (mem : Nat → UInt8) (sector : Nat) : Prop :=
  ∀ a, a / nor.sectorSz = sector → mem a = NOR_ERASED_STATE

/-- Writing the buffer back is sound: where the erase is skipped, the chip is
erased already. -/
def CanFlush (nor : NorInfo) (dev : NorDevice) : Prop :=
  dev.sectorPrevAddr ≠ dev.sectorSyncAddr →
    ErasedOn nor (dev.view nor) (dev.sectorPrevAddr / nor.sectorSz) →
    ErasedOn nor dev.chip (dev.sectorPrevAddr / nor.sectorSz)

/-- The driver stands for the memory, on the addresses of the chip. -/
structure Coherent (nor : NorInfo) (dev : NorDevice) (mem : Nat → UInt8) : Prop where
  active : dev.active = true
  addr : (dev.sectorPrevAddr = noAddr ∧ dev.sectorSyncAddr = noAddr) ∨
    (dev.sectorPrevAddr < nor.totalSz ∧ (dev.sectorSyncAddr = dev.sectorPrevAddr ∨
      dev.sectorSyncAddr / nor.sectorSz ≠ dev.sectorPrevAddr / nor.sectorSz))
  view : ∀ a, a < nor.totalSz → dev.view nor a = mem a
  clean : dev.sectorPrevAddr = dev.sectorSyncAddr → ∀ a, a < nor.totalSz → dev.chip a = mem a

section Geometry
variable (nor : NorInfo)

theorem NorInfo.slFlashSz_eq : nor.slFlashSz = nor.totalSz := by
  obtain ⟨c, hc⟩ := nor.totalSz_kib
  have hlt := nor.totalSz_lt
  simp only [slFlashSz, Nat.shiftRight_eq_div_pow, Nat.shiftLeft_eq,
    Nat.and_two_pow_sub_one_eq_mod]
  omega

theorem NorInfo.sectorSz_bits : ∃ k, k ≤ 32 ∧ nor.sectorSz = 2 ^ k := by
  obtain ⟨k, hk⟩ := nor.sectorSz_pow
  have hle : 2 ^ k ≤ 2 ^ 12 := hk ▸ nor.sectorSz_le
  have hk12 : k ≤ 12 := (Nat.pow_le_pow_iff_right (by decide)).mp hle
  exact ⟨k, Nat.le_trans hk12 (by decide), hk⟩

theorem getSectorAddress_eq {addr : Nat} (h : addr < 2 ^ 32) :
    getSectorAddress nor addr = addr / nor.sectorSz * nor.sectorSz := by
  obtain ⟨k, hk32, hk⟩ := nor.sectorSz_bits
  rw [getSectorAddress, hk, land_highMask addr hk32, Nat.mod_eq_of_lt h]

/-- The sector after the last one is still below the top of the address space. -/
theorem NorInfo.totalSz_add_le : nor.totalSz + nor.sectorSz ≤ 2 ^ 32 := by
  obtain ⟨k, hk32, hk⟩ := nor.sectorSz_bits
  exact add_le_of_dvd_of_lt nor.sectorSz_dvd (hk ▸ Nat.pow_dvd_pow 2 hk32) nor.totalSz_lt

theorem sector_noAddr_ne {a : Nat} (ha : a < nor.totalSz) :
    a / nor.sectorSz ≠ noAddr / nor.sectorSz := by
  have htop := nor.totalSz_add_le
  have hpos := nor.sectorSz_pos
  have hlt : a / nor.sectorSz < noAddr / nor.sectorSz := by
    rw [Nat.lt_iff_add_one_le, Nat.le_div_iff_mul_le hpos, Nat.add_mul, Nat.one_mul]
    have := Nat.div_mul_le_self a nor.sectorSz
    simp only [noAddr]
    omega
  exact Nat.ne_of_lt hlt

theorem sector_eq_iff (a sector : Nat) : a / nor.sectorSz = sector ↔
    sector * nor.sectorSz ≤ a ∧ a < sector * nor.sectorSz + nor.sectorSz := by
  have hpos := nor.sectorSz_pos
  have hdiv := Nat.div_add_mod' a nor.sectorSz
  have hmod := Nat.mod_lt a hpos
  constructor
  · intro h
    rw [← h]
    omega
  · intro h
    refine Nat.div_eq_of_lt_le h.1 ?_
    rw [Nat.succ_mul]
    exact h.2

theorem sub_sectorStart {a sector : Nat} (h : a / nor.sectorSz = sector) :
    a - sector * nor.sectorSz = a % nor.sectorSz := by
  have hdiv := Nat.div_add_mod' a nor.sectorSz
  rw [h] at hdiv
  omega

end Geometry

section Sync
variable {nor : NorInfo}

theorem isErased_iff (buf : Nat → UInt8) (sz : Nat) :
    isErased buf sz = true ↔ ∀ pos, pos < sz → buf pos = NOR_ERASED_STATE := by
  simp only [isErased, List.all_eq_true, List.mem_range, beq_iff_eq]

theorem and_erased (x : UInt8) : x &&& NOR_ERASED_STATE = x := UInt8.and_neg_one

theorem erased_and (x : UInt8) : NOR_ERASED_STATE &&& x = x := UInt8.neg_one_and

/-- Programming a page of the buffer, or skipping it when it is all ones, clears
on the chip the bits the buffer has clear. -/
theorem programPage_apply (base : Nat) (buf chip : Nat → UInt8) (n a : Nat) :
    programPage nor base buf chip n a =
      if base + n * nor.pageSz ≤ a ∧ a < base + (n + 1) * nor.pageSz then
        chip a &&& buf (a - base)
      else chip a := by
  have hsucc : (n + 1) * nor.pageSz = n * nor.pageSz + nor.pageSz := Nat.succ_mul _ _
  simp only [programPage]
  by_cases hin : base + n * nor.pageSz ≤ a ∧ a < base + (n + 1) * nor.pageSz
  · have hpage : base + n * nor.pageSz ≤ a ∧ a < base + n * nor.pageSz + nor.pageSz := by omega
    have hpos : n * nor.pageSz + (a - (base + n * nor.pageSz)) = a - base := by omega
    rw [if_pos hin]
    split
    · next herased =>
      have hb := (isErased_iff _ _).mp herased (a - (base + n * nor.pageSz)) (by omega)
      rw [hpos] at hb
      rw [hb, and_erased]
    · simp only [norPageProgram, if_pos hpage, hpos]
  · have hpage : ¬(base + n * nor.pageSz ≤ a ∧ a < base + n * nor.pageSz + nor.pageSz) := by omega
    rw [if_neg hin]
    split
    · rfl
    · simp only [norPageProgram, if_neg hpage]

theorem programPages_apply (base : Nat) (buf chip : Nat → UInt8) (n a : Nat) :
    (List.range n).foldl (programPage nor base buf) chip a =
      if base ≤ a ∧ a < base + n * nor.pageSz then chip a &&& buf (a - base) else chip a := by
  induction n with
  | zero =>
      rw [if_neg (by omega)]
      rfl
  | succ n ih =>
      have hsucc : (n + 1) * nor.pageSz = n * nor.pageSz + nor.pageSz := Nat.succ_mul _ _
      rw [List.range_succ, List.foldl_append, List.foldl_cons, List.foldl_nil,
        programPage_apply, ih]
      by_cases hlt : a < base + n * nor.pageSz
      · rw [if_neg (by omega)]
        by_cases hge : base ≤ a
        · rw [if_pos ⟨hge, hlt⟩, if_pos (by omega)]
        · rw [if_neg (by omega), if_neg (by omega)]
      · rw [if_neg (by omega : ¬(base ≤ a ∧ a < base + n * nor.pageSz))]
        by_cases hlast : a < base + (n + 1) * nor.pageSz
        · rw [if_pos (by omega), if_pos (by omega)]
        · rw [if_neg (by omega), if_neg (by omega)]

theorem isErased_iff_view (dev : NorDevice) : isErased dev.sectorBuf nor.sectorSz = true ↔
    ErasedOn nor (dev.view nor) (dev.sectorPrevAddr / nor.sectorSz) := by
  rw [isErased_iff]
  constructor
  · intro h a ha
    rw [NorDevice.view, if_pos ha]
    exact h _ (Nat.mod_lt _ nor.sectorSz_pos)
  · intro h pos hpos
    have hsector : (dev.sectorPrevAddr / nor.sectorSz * nor.sectorSz + pos) / nor.sectorSz =
        dev.sectorPrevAddr / nor.sectorSz := by
      rw [sector_eq_iff]
      omega
    have hb := h _ hsector
    rw [NorDevice.view, if_pos hsector, Nat.mul_add_mod_self_right, Nat.mod_eq_of_lt hpos] at hb
    exact hb

theorem flush_apply (dev : NorDevice) (hprev : dev.sectorPrevAddr < 2 ^ 32)
    (hflush : ErasedOn nor (dev.view nor) (dev.sectorPrevAddr / nor.sectorSz) →
      ErasedOn nor dev.chip (dev.sectorPrevAddr / nor.sectorSz)) (a : Nat) :
    (List.range (nor.sectorSz / nor.pageSz)).foldl
        (programPage nor (getSectorAddress nor dev.sectorPrevAddr) dev.sectorBuf)
        (if isErased dev.sectorBuf nor.sectorSz then dev.chip
          else norEraseSector nor dev.chip (getSectorAddress nor dev.sectorPrevAddr)) a =
      dev.view nor a := by
  have hstart : dev.sectorPrevAddr / nor.sectorSz * nor.sectorSz / nor.sectorSz =
      dev.sectorPrevAddr / nor.sectorSz := Nat.mul_div_cancel _ nor.sectorSz_pos
  rw [programPages_apply, Nat.div_mul_cancel nor.pageSz_dvd, getSectorAddress_eq nor hprev]
  by_cases hin : a / nor.sectorSz = dev.sectorPrevAddr / nor.sectorSz
  · have hview : dev.view nor a = dev.sectorBuf (a % nor.sectorSz) := if_pos hin
    rw [if_pos ((sector_eq_iff nor a _).mp hin), sub_sectorStart nor hin, ← hview]
    by_cases herased : isErased dev.sectorBuf nor.sectorSz = true
    · have hones := (isErased_iff_view dev).mp herased
      rw [if_pos herased, hflush hones a hin, hones a hin, erased_and]
    · rw [if_neg herased, norEraseSector, hstart, if_pos hin, erased_and]
  · have hout := mt (sector_eq_iff nor a _).mpr hin
    have hview : dev.view nor a = dev.chip a := if_neg hin
    rw [if_neg hout, hview]
    split
    · rfl
    · rw [norEraseSector, hstart, if_neg hin]

theorem Coherent.prev_lt {dev : NorDevice} {mem : Nat → UInt8} (h : Coherent nor dev mem) :
    dev.sectorPrevAddr < 2 ^ 32 := by
  have htop := nor.totalSz_lt
  cases h.addr with
  | inl hno => simp only [hno.1, noAddr]; omega
  | inr hprev => exact Nat.lt_trans hprev.1 htop

theorem flashdrvSync_spec {dev : NorDevice} {mem : Nat → UInt8} (h : Coherent nor dev mem)
    (hflush : CanFlush nor dev) :
    ∃ dev' res, flashdrvSync nor dev = (dev', res) ∧ 0 ≤ res ∧ Coherent nor dev' mem ∧
      dev'.sectorPrevAddr = dev.sectorPrevAddr ∧ dev'.sectorSyncAddr = dev.sectorPrevAddr := by
  simp only [flashdrvSync, h.active, Bool.not_true, Bool.false_eq_true, if_false]
  split
  · next hno =>
    refine ⟨dev, EOK, rfl, by decide, h, rfl, ?_⟩
    have htop := nor.totalSz_lt
    cases h.addr with
    | inl haddr => rw [haddr.1, haddr.2]
    | inr haddr => simp only [hno, noAddr] at haddr; omega
  · split
    · next _ hsync => exact ⟨dev, EOK, rfl, by decide, h, rfl, hsync.symm⟩
    · next hno hsync =>
      have hchip := flush_apply dev h.prev_lt (hflush hsync)
      refine ⟨_, _, rfl, Int.natCast_nonneg _, ⟨rfl, Or.inr ⟨?_, Or.inl rfl⟩, ?_, ?_⟩,
        rfl, rfl⟩
      · cases h.addr with
        | inl haddr => exact absurd haddr.1 hno
        | inr haddr => exact haddr.1
      · intro a ha
        rw [← h.view a ha]
        simp only [NorDevice.view]
        split
        · rfl
        · next hout => rw [hchip, NorDevice.view, if_neg hout]
      · intro _ a ha
        rw [← h.view a ha]
        exact hchip a

/-- Where writing back is not sound, the chip keeps a byte it should lose. -/
theorem flashdrvSync_stale {dev : NorDevice} {mem : Nat → UInt8} (h : Coherent nor dev mem)
    (hflush : ¬CanFlush nor dev) :
    ∃ a, a < nor.totalSz ∧ (flashdrvSync nor dev).1.chip a ≠ mem a := by
  simp only [CanFlush, Classical.not_imp, ErasedOn, not_forall] at hflush
  obtain ⟨hdirty, hones, a, ha, hchip⟩ := hflush
  cases h.addr with
  | inl haddr => exact absurd (haddr.1.trans haddr.2.symm) hdirty
  | inr haddr =>
      have hno : dev.sectorPrevAddr ≠ noAddr := fun heq =>
        sector_noAddr_ne nor haddr.1 (by rw [heq])
      have hstart := Nat.lt_of_le_of_lt (Nat.div_mul_le_self _ nor.sectorSz) haddr.1
      have hend := add_le_of_dvd_of_lt (Nat.dvd_mul_left nor.sectorSz _) nor.sectorSz_dvd hstart
      have hin := (sector_eq_iff nor a _).mp ha
      have hbuf := hones a ha
      refine ⟨a, by omega, ?_⟩
      rw [← h.view a (by omega), hbuf]
      rw [NorDevice.view, if_pos ha] at hbuf
      simp only [flashdrvSync, h.active, Bool.not_true, Bool.false_eq_true, if_false, if_neg hno,
        if_neg hdirty, if_pos ((isErased_iff_view dev).mpr hones)]
      rw [programPages_apply, Nat.div_mul_cancel nor.pageSz_dvd,
        getSectorAddress_eq nor h.prev_lt, if_pos hin, sub_sectorStart nor ha, hbuf, and_erased]
      exact hchip

theorem bufferSync_stay {dev : NorDevice} {dstAddr : Nat} (isLast : Bool)
    (h : dstAddr / nor.sectorSz = dev.sectorPrevAddr / nor.sectorSz) :
    bufferSync nor dev dstAddr isLast = (dev, 0) := by
  simp only [bufferSync, getSectorIdFromAddress, h, ne_eq, not_true_eq_false, if_false]

/-- A write that enters a sector finds its content in the buffer, and all of the
memory on the chip. -/
theorem bufferSync_enter {dev : NorDevice} {mem : Nat → UInt8} (h : Coherent nor dev mem)
    {dstAddr : Nat} (hsector : dstAddr / nor.sectorSz ≠ dev.sectorPrevAddr / nor.sectorSz)
    (hfits : dstAddr + nor.sectorSz ≤ nor.totalSz) (hflush : CanFlush nor dev) :
    ∃ dev' res, bufferSync nor dev dstAddr false = (dev', res) ∧ 0 ≤ res ∧
      Coherent nor dev' mem ∧ dev'.sectorPrevAddr = dstAddr ∧ dev'.sectorSyncAddr ≠ dstAddr ∧
      ∀ a, a < nor.totalSz → dev'.chip a = mem a := by
  have hpos := nor.sectorSz_pos
  have htop := nor.totalSz_lt
  obtain ⟨dev', res, hsync, hres, hc, hprev, hsynced⟩ := flashdrvSync_spec h hflush
  have hchip := hc.clean (hprev.trans hsynced.symm)
  have hne : dev'.sectorSyncAddr / nor.sectorSz ≠ dstAddr / nor.sectorSz := by
    rw [hsynced]
    exact hsector.symm
  have hmod : (dstAddr + nor.sectorSz) % 2 ^ 32 = dstAddr + nor.sectorSz :=
    Nat.mod_eq_of_lt (by omega)
  refine ⟨{ dev' with
      sectorBuf := norReadData dev'.chip (getSectorAddress nor dstAddr)
      sectorPrevAddr := dstAddr }, nor.sectorSz, ?_, Int.natCast_nonneg _, ?_⟩
  · simp only [bufferSync, getSectorIdFromAddress, ne_eq, hsector, not_false_eq_true, if_true,
      hsync, if_neg (Int.not_lt.mpr hres), if_neg (by omega : ¬nor.totalSz ≤ dstAddr),
      Bool.false_eq_true, if_false, hmod, if_neg (Nat.not_lt.mpr hfits)]
  · refine ⟨⟨hc.active, Or.inr ⟨by simp only; omega, Or.inr hne⟩, ?_, ?_⟩, rfl,
      fun heq => hne (by rw [heq]), hchip⟩
    · intro a ha
      simp only [NorDevice.view, norReadData]
      split
      · next hin =>
        rw [getSectorAddress_eq nor (by omega), ← hin, Nat.div_add_mod' a nor.sectorSz]
        exact hchip a ha
      · exact hchip a ha
    · intro _
      exact hchip

theorem bufferSync_last {dev : NorDevice} {mem : Nat → UInt8} (h : Coherent nor dev mem)
    {dstAddr : Nat} (hflush : dstAddr / nor.sectorSz ≠ dev.sectorPrevAddr / nor.sectorSz →
      CanFlush nor dev) :
    ∃ dev' res, bufferSync nor dev dstAddr true = (dev', res) ∧ 0 ≤ res ∧
      Coherent nor dev' mem := by
  by_cases hsector : dstAddr / nor.sectorSz = dev.sectorPrevAddr / nor.sectorSz
  · exact ⟨dev, 0, bufferSync_stay true hsector, Int.le_refl 0, h⟩
  · obtain ⟨dev', res, hsync, hres, hc, hprev, hsynced⟩ := flashdrvSync_spec h (hflush hsector)
    have hchip := hc.clean (hprev.trans hsynced.symm)
    refine ⟨if nor.totalSz ≤ dstAddr then
        { dev' with sectorPrevAddr := noAddr, sectorSyncAddr := noAddr } else dev',
      res, ?_, hres, ?_⟩
    · simp only [bufferSync, getSectorIdFromAddress, ne_eq, hsector, not_false_eq_true, if_true,
        hsync, if_neg (Int.not_lt.mpr hres)]
    · split
      · refine ⟨hc.active, Or.inl ⟨rfl, rfl⟩, ?_, fun _ => hchip⟩
        intro a ha
        rw [NorDevice.view, if_neg (sector_noAddr_ne nor ha)]
        exact hchip a ha
      · exact hc

end Sync

end Plo.Devices
