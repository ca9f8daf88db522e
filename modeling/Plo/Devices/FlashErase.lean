import Plo.Devices.FlashRuns
import Plo.Devices.FlashZynqRuns

/-!
Erasing with the drivers that keep a sector in a buffer. Both drop the buffer when
they erase anything at all, so that what was written and not yet synchronised
keeps its value outside the erased sectors only where the chip has it already.
-/
namespace Plo.Devices

section Imxrt
variable {nor : NorInfo}

/-- The byte lies in a sector that meets the range. -/
def Meets (nor : NorInfo) (addr len a : Nat) : Prop :=
  ∃ b, addr ≤ b ∧ b < addr + len ∧ b / nor.sectorSz = a / nor.sectorSz

/-- What the buffer holds outside the sectors that meet the range is on the chip
as well; with nothing to erase, the buffer can be written back. -/
def EraseSafe (nor : NorInfo) (dev : NorDevice) (addr len : Nat) : Prop :=
  if len = 0 then CanFlush nor dev
  else ∀ a, a < nor.totalSz → ¬Meets nor addr len a →
    a / nor.sectorSz = dev.sectorPrevAddr / nor.sectorSz → dev.chip a = dev.sectorBuf (a % nor.sectorSz)

/-- The sectors between the first and the last one of a range meet it. -/
theorem meets_of_between {addr len a : Nat} (hlen : len ≠ 0)
    (hlo : addr / nor.sectorSz ≤ a / nor.sectorSz)
    (hhi : a / nor.sectorSz < (addr + len + (nor.sectorSz - 1)) / nor.sectorSz) :
    Meets nor addr len a := by
  have hpos := nor.sectorSz_pos
  cases Nat.eq_or_lt_of_le hlo with
  | inl heq => exact ⟨addr, Nat.le_refl _, by omega, heq⟩
  | inr hlt =>
      have hstart : addr < a / nor.sectorSz * nor.sectorSz := by
        rw [← Nat.div_lt_iff_lt_mul hpos]
        exact hlt
      have hend := (Nat.le_div_iff_mul_le hpos).mp (Nat.succ_le_of_lt hhi)
      rw [Nat.succ_mul] at hend
      exact ⟨a / nor.sectorSz * nor.sectorSz, by omega, by omega, Nat.mul_div_cancel _ hpos⟩

theorem eraseLoop_spec (n : Nat) (dev : NorDevice) (sector len : Nat) :
    ∃ chip res, eraseLoop nor dev (sector * nor.sectorSz) ((sector + n) * nor.sectorSz) len =
        ({ dev with chip := chip }, res) ∧
      ∀ a, a / nor.sectorSz < sector ∨ sector + n ≤ a / nor.sectorSz → chip a = dev.chip a := by
  have hpos := nor.sectorSz_pos
  induction n generalizing dev sector len with
  | zero =>
      refine ⟨dev.chip, len, ?_, fun _ _ => rfl⟩
      rw [eraseLoop, Nat.add_zero, if_neg (Nat.lt_irrefl _)]
  | succ n ih =>
      obtain ⟨chip, res, hloop, hchip⟩ := ih
        { dev with chip := norEraseSector nor dev.chip (sector * nor.sectorSz) } (sector + 1)
        (len + nor.sectorSz)
      have hnext : sector * nor.sectorSz + nor.sectorSz = (sector + 1) * nor.sectorSz :=
        (Nat.succ_mul _ _).symm
      have hsum : sector + (n + 1) = sector + 1 + n := by omega
      have hlt : sector * nor.sectorSz < (sector + 1 + n) * nor.sectorSz :=
        Nat.mul_lt_mul_of_pos_right (by omega) hpos
      refine ⟨chip, res, ?_, ?_⟩
      · rw [eraseLoop, hsum, if_pos hlt, hnext, hloop]
      · intro a ha
        have hne : a / nor.sectorSz ≠ sector := by omega
        rw [hchip a (by omega)]
        simp only [norEraseSector, Nat.mul_div_cancel _ hpos, if_neg hne]

/-- After an erase of some bytes nothing is buffered, and the chip is as it was
outside the sectors that meet the range. -/
theorem flashdrvErase_spec {dev : NorDevice} (hactive : dev.active = true) {addr len : Nat}
    (hlen : len ≠ 0) (hfits : addr + len ≤ nor.totalSz) :
    ∃ dev' res, flashdrvErase nor dev addr len = (dev', res) ∧ dev'.active = true ∧
      dev'.sectorPrevAddr = noAddr ∧
      ∀ a, ¬Meets nor addr len a → dev'.chip a = dev.chip a := by
  have htop := nor.totalSz_add_le
  have hlt := nor.totalSz_lt
  have hpos := nor.sectorSz_pos
  have hkib := nor.totalSz_kib
  have hall : len ≠ 2 ^ 32 - 1 := by omega
  have hlast : (addr + len + (nor.sectorSz - 1)) / nor.sectorSz * nor.sectorSz =
      (addr / nor.sectorSz + ((addr + len + (nor.sectorSz - 1)) / nor.sectorSz -
        addr / nor.sectorSz)) * nor.sectorSz := by
    have hle : addr / nor.sectorSz ≤ (addr + len + (nor.sectorSz - 1)) / nor.sectorSz :=
      Nat.div_le_div_right (by omega)
    rw [Nat.add_sub_cancel' hle]
  obtain ⟨chip, res, hloop, hchip⟩ := @eraseLoop_spec nor
    ((addr + len + (nor.sectorSz - 1)) / nor.sectorSz - addr / nor.sectorSz)
    { dev with sectorPrevAddr := noAddr, sectorSyncAddr := noAddr } (addr / nor.sectorSz) 0
  refine ⟨{ dev with chip := chip, sectorPrevAddr := noAddr, sectorSyncAddr := noAddr }, res, ?_,
    hactive, rfl, ?_⟩
  · rw [flashdrvErase, if_neg (by simp [hactive]), nor.slFlashSz_eq,
      Nat.mod_eq_of_lt (by omega : addr + len < 2 ^ 32), if_neg (by omega), if_neg hlen,
      if_neg hall, Nat.mod_eq_of_lt (by omega), getSectorAddress_eq nor (by omega),
      getSectorAddress_eq nor (by omega), hlast]
    exact hloop
  · intro a hout
    refine hchip a ?_
    by_contra hin
    rw [not_or] at hin
    exact hout (meets_of_between hlen (by omega) (by omega))

theorem flashdrvSync_none {dev : NorDevice} (hactive : dev.active = true)
    (hnone : dev.sectorPrevAddr = noAddr) : flashdrvSync nor dev = (dev, EOK) := by
  simp only [flashdrvSync, hactive, Bool.not_true, Bool.false_eq_true, if_false, if_pos hnone]

/-- Synchronising after an erase leaves the content outside the sectors that meet
the range, exactly when the erase was safe. -/
theorem Coherent.erase_iff {dev : NorDevice} {mem : Nat → UInt8} (h : Coherent nor dev mem)
    {addr len : Nat} (hfits : addr + len ≤ nor.totalSz) :
    (∀ a, a < nor.totalSz → ¬Meets nor addr len a →
        (flashdrvSync nor (flashdrvErase nor dev addr len).1).1.chip a = mem a) ↔
      EraseSafe nor dev addr len := by
  by_cases hlen : len = 0
  · have hnothing : flashdrvErase nor dev addr len = (dev, 0) := by
      have hlt := nor.totalSz_lt
      rw [flashdrvErase, nor.slFlashSz_eq, Nat.mod_eq_of_lt (by omega)]
      simp only [h.active, Bool.not_true, Bool.false_eq_true, if_false, if_pos hlen,
        if_neg (by omega : ¬(addr + len > nor.totalSz ∧ len ≠ 2 ^ 32 - 1))]
    have hout : ∀ a, ¬Meets nor addr len a := by
      intro a hmeets
      obtain ⟨b, hlo, hhi, _⟩ := hmeets
      omega
    rw [hnothing, EraseSafe, if_pos hlen]
    constructor
    · intro hchip
      by_contra hflush
      obtain ⟨a, ha, hne⟩ := flashdrvSync_stale h hflush
      exact hne (hchip a ha (hout a))
    · intro hflush a ha _
      obtain ⟨dev', res, heq, _, hc, hprev, hsynced⟩ := flashdrvSync_spec h hflush
      rw [heq]
      exact hc.clean (hprev.trans hsynced.symm) a ha
  · obtain ⟨dev', res, herase, hactive, hnone, hchip⟩ := flashdrvErase_spec h.active hlen hfits
    rw [herase, flashdrvSync_none hactive hnone, EraseSafe, if_neg hlen]
    constructor
    · intro hkept a ha hout hbuf
      rw [← hchip a hout, hkept a ha hout, ← h.view a ha, NorDevice.view, if_pos hbuf]
    · intro hsafe a ha hout
      rw [hchip a hout, ← h.view a ha, NorDevice.view]
      split
      · next hbuf => exact hsafe a ha hout hbuf
      · rfl

end Imxrt

namespace Zynq
variable {cfi : FlashCfi}

/-- The byte is in the range, or in one sector with a byte of it. -/
def Meets (cfi : FlashCfi) (addr len a : Nat) : Prop :=
  (addr ≤ a ∧ a < addr + len) ∨ ∃ b id sect, addr ≤ b ∧ b < addr + len ∧ InRegion cfi id b ∧
    (cfi.base id sect ≤ b ∧ b < cfi.base id sect + cfi.sectSz id) ∧
    (cfi.base id sect ≤ a ∧ a < cfi.base id sect + cfi.sectSz id)

/-- Rounding to a multiple of the sector size gives a border of sectors at both
ends, and the search is right there and at the borders between. -/
structure EraseFits (cfi : FlashCfi) (addr len : Nat) : Prop where
  aligned : ∀ id, InRegion cfi id addr ∨ InRegion cfi id (addr + len - 1) →
    cfi.sectSz id ∣ flashdrvRegStart cfi id
  found : ∀ a, a = addr ∨ a = addr + len - 1 ∨ (AtBorder cfi a ∧ Meets cfi addr len a) →
    Found cfi a

/-- A sector starts at the offset. -/
def StartsSector (cfi : FlashCfi) (id x : Nat) : Prop :=
  InRegion cfi id x ∧ cfi.base id (sectorOf cfi x id) = x

section Sectors

theorem regStart_mono (cfi : FlashCfi) {id id' : Nat} (h : id ≤ id') :
    flashdrvRegStart cfi id ≤ flashdrvRegStart cfi id' := by
  rw [← regStart_regions, ← regStart_regions]
  exact CfiRegions.regStart_mono h

theorem InRegion.contains {id a : Nat} (h : InRegion cfi id a) : cfi.regions.Contains id a :=
  CfiRegions.contains_iff.mpr ⟨h.lt, h.start, h.stop⟩

theorem InRegion.unique {id id' a : Nat} (h : InRegion cfi id a) (h' : InRegion cfi id' a) :
    id = id' :=
  h.contains.unique h'.contains

/-- Sectors of one region that share a byte are the same. -/
theorem base_unique (cfi : FlashCfi) (id a : Nat) {sect sect' : Nat}
    (h : cfi.base id sect ≤ a ∧ a < cfi.base id sect + cfi.sectSz id)
    (h' : cfi.base id sect' ≤ a ∧ a < cfi.base id sect' + cfi.sectSz id) : sect = sect' := by
  simp only [FlashCfi.base] at h h'
  cases Nat.lt_trichotomy sect sect' with
  | inl hlt =>
      have hmono := Nat.mul_le_mul_right (cfi.sectSz id) (Nat.succ_le_of_lt hlt)
      rw [Nat.succ_mul] at hmono
      omega
  | inr hge =>
      cases hge with
      | inl heq => exact heq
      | inr hgt =>
          have hmono := Nat.mul_le_mul_right (cfi.sectSz id) (Nat.succ_le_of_lt hgt)
          rw [Nat.succ_mul] at hmono
          omega

/-- The bytes of a sector lie in its region, and have it as their sector. -/
theorem StartsSector.inside {id x a : Nat} (h : StartsSector cfi id x) (hlo : x ≤ a)
    (hhi : a < x + cfi.sectSz id) :
    InRegion cfi id a ∧ cfi.base id (sectorOf cfi a id) = x := by
  obtain ⟨hid, hbase⟩ := h
  obtain ⟨_, _, hend⟩ := hid.sector
  have hstart := hid.start
  rw [hbase] at hend
  have hida : InRegion cfi id a := ⟨hid.lt, by omega, by omega⟩
  obtain ⟨hpos, hlt, _⟩ := hida.sector
  have hsame : sectorOf cfi a id = sectorOf cfi x id := by
    refine base_unique cfi id a ?_ ?_
    · omega
    · rw [hbase]
      omega
  exact ⟨hida, by rw [hsame, hbase]⟩

/-- Where a sector ends on the chip, another one starts. -/
theorem StartsSector.next {id id' x : Nat} (h : StartsSector cfi id x)
    (h' : InRegion cfi id' (x + cfi.sectSz id)) : StartsSector cfi id' (x + cfi.sectSz id) := by
  obtain ⟨hid, hbase⟩ := h
  obtain ⟨_, _, hend⟩ := hid.sector
  have hpos := FlashCfi.sectSz_pos h'.lt
  obtain ⟨hpos', hlt', _⟩ := h'.sector
  have hstart := hid.start
  have hstart' := h'.start
  have hstop' := h'.stop
  rw [hbase] at hend
  refine ⟨h', ?_⟩
  have hat : ∃ sect, cfi.base id' sect = x + cfi.sectSz id := by
    by_cases hin : x + cfi.sectSz id < flashdrvRegStart cfi (id + 1)
    · have hsame := InRegion.unique h' ⟨hid.lt, by omega, hin⟩
      rw [hsame]
      refine ⟨sectorOf cfi x id + 1, ?_⟩
      rw [FlashCfi.base] at hbase ⊢
      rw [Nat.succ_mul]
      omega
    · refine ⟨0, ?_⟩
      have hle : id + 1 ≤ id' := by
        by_contra hgt
        have hmono := regStart_mono cfi (by omega : id' + 1 ≤ id + 1)
        omega
      have hmono := regStart_mono cfi hle
      rw [FlashCfi.base]
      omega
  obtain ⟨sect, hsect⟩ := hat
  have hsame : sectorOf cfi (x + cfi.sectSz id) id' = sect :=
    base_unique cfi id' (x + cfi.sectSz id) (by omega) (by omega)
  rw [hsame, hsect]

theorem InRegion.startsSector {id a : Nat} (h : InRegion cfi id a) :
    StartsSector cfi id (cfi.base id (sectorOf cfi a id)) := by
  obtain ⟨hpos, hlt, hend⟩ := h.sector
  have hsz := FlashCfi.sectSz_pos h.lt
  have hle : flashdrvRegStart cfi id ≤ cfi.base id (sectorOf cfi a id) := Nat.le_add_right _ _
  have hstop := h.stop
  have hx : InRegion cfi id (cfi.base id (sectorOf cfi a id)) := ⟨h.lt, hle, by omega⟩
  obtain ⟨hpos', hlt', _⟩ := hx.sector
  have hsame : sectorOf cfi (cfi.base id (sectorOf cfi a id)) id = sectorOf cfi a id :=
    base_unique cfi id (cfi.base id (sectorOf cfi a id)) (by omega) (by omega)
  exact ⟨hx, by rw [hsame]⟩

/-- In a region that starts at a multiple of its sector size, so do its sectors. -/
theorem InRegion.base_eq {id a : Nat} (h : InRegion cfi id a)
    (hdvd : cfi.sectSz id ∣ flashdrvRegStart cfi id) :
    cfi.base id (sectorOf cfi a id) = a / cfi.sectSz id * cfi.sectSz id := by
  have hsz := FlashCfi.sectSz_pos h.lt
  have hstart := h.start
  obtain ⟨c, hc⟩ := hdvd
  have ha : a = a - flashdrvRegStart cfi id + cfi.sectSz id * c := by omega
  conv => rhs; rw [ha, Nat.add_mul_div_left _ _ hsz, Nat.add_mul, Nat.mul_comm c, ← hc]
  rw [FlashCfi.base, sectorOf, h.regionOfs_eq, Nat.add_comm]

theorem alignDown_eq {id a : Nat} (h : id < cfi.regs.length) (ha : a < 2 ^ 32) :
    alignDown a (cfi.sectSz id) = a / cfi.sectSz id * cfi.sectSz id := by
  obtain ⟨k, _, hk, hsz⟩ := cfi.sectSz_pow h
  rw [alignDown, hsz, land_highMask a (by omega), Nat.mod_eq_of_lt ha]

end Sectors

/-- The loop from the start of a sector to an address no sector reaches over
changes the chip between the two only. -/
theorem eraseLoop_spec (n : Nat) (dev : FlashDrv) {x end_ : Nat} (len : Nat) (hn : end_ - x ≤ n)
    (hx : x = end_ ∨ ∃ id, StartsSector cfi id x) (hle : x ≤ end_)
    (hfound : ∀ y, x ≤ y → y < end_ → AtBorder cfi y → Found cfi y)
    (hends : ∀ id y, StartsSector cfi id y → x ≤ y → y < end_ → y + cfi.sectSz id ≤ end_) :
    ∃ chip res, eraseLoop cfi dev x end_ len = ({ dev with chip := chip }, res) ∧
      ∀ a, a < x ∨ end_ ≤ a → chip a = dev.chip a := by
  induction n generalizing dev x len with
  | zero =>
      refine ⟨dev.chip, len, ?_, fun _ _ => rfl⟩
      rw [eraseLoop, if_neg (by omega)]
  | succ n ih =>
      by_cases hlt : x < end_
      · obtain ⟨id, hstarts⟩ : ∃ id, StartsSector cfi id x := hx.resolve_left (Nat.ne_of_lt hlt)
        have hid := hstarts.1
        have hsz := FlashCfi.sectSz_pos hid.lt
        have hflash := hid.lt_flashSz
        obtain ⟨_, _, hend⟩ := hid.sector
        rw [hstarts.2] at hend
        obtain ⟨id', hfind, hid'⟩ := hfound x (Nat.le_refl _) hlt
          ⟨id, sectorOf cfi x id, hid.lt, hstarts.2.symm, Nat.le_of_lt hid.stop⟩
        have hsame := hid'.unique hid
        subst hsame
        have hreach := hends id' x hstarts (Nat.le_refl _) hlt
        have hnext : x + cfi.sectSz id' = end_ ∨
            ∃ id, StartsSector cfi id (x + cfi.sectSz id') := by
          by_cases hmore : x + cfi.sectSz id' < end_
          · obtain ⟨id'', _, hid''⟩ := hfound (x + cfi.sectSz id') (by omega) hmore
              ⟨id', sectorOf cfi x id' + 1, hid.lt, by
                rw [FlashCfi.base, Nat.succ_mul, ← Nat.add_assoc, ← FlashCfi.base, hstarts.2],
                hend⟩
            exact Or.inr ⟨id'', hstarts.next hid''⟩
          · exact Or.inl (by omega)
        obtain ⟨chip, res, hloop, hchip⟩ := ih
          { dev with chip := Nor.erase dev.chip x (cfi.sectSz id') } (len + cfi.sectSz id')
          (by omega) hnext hreach (fun y hlo => hfound y (by omega))
          (fun id y hy hlo => hends id y hy (by omega))
        have hcmd := FlashCfi.hasEraseCmd hid.lt
        refine ⟨chip, res, ?_, ?_⟩
        · rw [eraseLoop, if_pos hlt]
          simp only [hfind, dif_pos (And.intro (Nat.le_of_lt hflash) hcmd),
            flashdrvSectorErase_ok dev (Nat.le_of_lt hflash) hcmd]
          exact hloop
        · intro a ha
          have hout : ¬(x ≤ a ∧ a < x + cfi.sectSz id') := by omega
          rw [hchip a (by omega)]
          simp only [Nor.erase, patch, if_neg hout]
      · refine ⟨dev.chip, len, ?_, fun _ _ => rfl⟩
        rw [eraseLoop, if_neg hlt]

/-- From the sector of the first byte to that of the last one every byte is in a
sector that meets the range. -/
theorem meets_of_between {addr len first last a : Nat} (hlen : len ≠ 0)
    (hfirst : InRegion cfi first addr) (hlast : InRegion cfi last (addr + len - 1))
    (hlo : cfi.base first (sectorOf cfi addr first) ≤ a)
    (hhi : a < cfi.base last (sectorOf cfi (addr + len - 1) last) + cfi.sectSz last) :
    Meets cfi addr len a := by
  obtain ⟨hpos, hlt, _⟩ := hfirst.sector
  obtain ⟨hpos', hlt', _⟩ := hlast.sector
  by_cases hin : a < cfi.base first (sectorOf cfi addr first) + cfi.sectSz first
  · exact Or.inr ⟨addr, first, _, by omega, by omega, hfirst, by omega, ⟨hlo, hin⟩⟩
  · by_cases hend : cfi.base last (sectorOf cfi (addr + len - 1) last) ≤ a
    · exact Or.inr ⟨addr + len - 1, last, _, by omega, by omega, hlast, by omega, ⟨hend, hhi⟩⟩
    · exact Or.inl (by omega)

/-- No sector reaches over the end of another one. -/
theorem StartsSector.ends_before {id last x y : Nat} (h : StartsSector cfi id y)
    (hx : StartsSector cfi last x) (hlt : y < x + cfi.sectSz last) :
    y + cfi.sectSz id ≤ x + cfi.sectSz last := by
  by_cases hle : x ≤ y
  · obtain ⟨hid, hbase⟩ := hx.inside hle hlt
    have hsame := h.1.unique hid
    subst hsame
    rw [h.2] at hbase
    omega
  · by_contra hover
    obtain ⟨hid, hbase⟩ := h.inside (by omega : y ≤ x) (by omega)
    have hsame := hx.1.unique hid
    subst hsame
    rw [hx.2] at hbase
    omega

/-- After an erase of some bytes nothing is buffered, and the chip is as it was
outside the sectors that meet the range. -/
theorem flashdrvErase_spec {addr len : Nat} (hfit : EraseFits cfi addr len) (dev : FlashDrv)
    (hlen : len ≠ 0) (hfits : addr + len ≤ cfi.flashSz) :
    ∃ dev' res, flashdrvErase cfi dev addr len = (dev', res) ∧ dev'.buffPos = 0 ∧
      ∀ a, ¬Meets cfi addr len a → dev'.chip a = dev.chip a := by
  have htop := cfi.flashSz_lt
  obtain ⟨first, hfind, hfirst⟩ := hfit.found addr (Or.inl rfl)
  obtain ⟨last, hfind', hlast⟩ := hfit.found (addr + len - 1) (Or.inr (Or.inl rfl))
  have hstart := hfirst.base_eq (hfit.aligned first (Or.inl hfirst))
  have hend := hlast.base_eq (hfit.aligned last (Or.inr hlast))
  have hsz := FlashCfi.sectSz_pos hlast.lt
  have hup : (addr + len + cfi.sectSz last - 1) / cfi.sectSz last * cfi.sectSz last =
      cfi.base last (sectorOf cfi (addr + len - 1) last) + cfi.sectSz last := by
    have hsum : addr + len + cfi.sectSz last - 1 = addr + len - 1 + cfi.sectSz last := by omega
    rw [hend, hsum, Nat.add_div_right _ hsz, Nat.succ_mul]
  have hreach := hlast.startsSector
  have hmeets : ∀ a, cfi.base first (sectorOf cfi addr first) ≤ a →
      a < cfi.base last (sectorOf cfi (addr + len - 1) last) + cfi.sectSz last →
      Meets cfi addr len a := fun a => meets_of_between hlen hfirst hlast
  obtain ⟨hpos, hlt, _⟩ := hfirst.sector
  obtain ⟨hpos', hlt', hflash⟩ := hlast.sector
  have hle := regStart_le cfi (last + 1)
  have hhalf : cfi.flashSz ≤ 2 ^ 31 :=
    Nat.pow_le_pow_right (by decide) (Nat.le_of_lt_succ cfi.chipSize_lt)
  have hword : addr + len + cfi.sectSz last - 1 < 2 ^ 32 := by
    obtain ⟨k, _, hk, hpow⟩ := cfi.sectSz_pow hlast.lt
    have hsmall : 2 ^ k ≤ 2 ^ 16 := Nat.pow_le_pow_right (by decide) hk
    omega
  obtain ⟨chip, res, hloop, hchip⟩ := eraseLoop_spec
    (cfi.base last (sectorOf cfi (addr + len - 1) last) + cfi.sectSz last -
      cfi.base first (sectorOf cfi addr first))
    { dev with regID := noID, sectID := noID, buffPos := 0 } 0 (Nat.le_refl _)
    (Or.inr ⟨first, hfirst.startsSector⟩) (by omega)
    (fun y hlo hhi hborder => hfit.found y (Or.inr (Or.inr ⟨hborder, hmeets y hlo hhi⟩)))
    (fun id y hy _ hhi => hy.ends_before hreach hhi)
  refine ⟨{ dev with chip := chip, regID := noID, sectID := noID, buffPos := 0 }, res, ?_, rfl, ?_⟩
  · have hprev : (addr + len + 2 ^ 32 - 1) % 2 ^ 32 = addr + len - 1 := by omega
    rw [flashdrvErase, if_neg hlen, if_neg (by omega),
      Nat.mod_eq_of_lt (by omega : addr + len < 2 ^ 32), if_neg (Nat.not_lt.mpr hfits)]
    simp only [hprev, hfind', hfind, Nat.mod_eq_of_lt hword, alignDown_eq hlast.lt hword, hup,
      alignDown_eq hfirst.lt (by omega : addr < 2 ^ 32), ← hstart]
    exact hloop
  · intro a hout
    refine hchip a ?_
    by_contra hin
    rw [not_or] at hin
    exact hout (hmeets a (by omega) (by omega))

/-- What is buffered outside the sectors that meet the range is all ones, as the
chip is there. -/
def EraseSafe (cfi : FlashCfi) (dev : FlashDrv) (addr len : Nat) : Prop :=
  len ≠ 0 → dev.buffPos ≠ 0 → ∀ a, ¬Meets cfi addr len a →
    cfi.base dev.regID dev.sectID ≤ a →
    a < cfi.base dev.regID dev.sectID + cfi.sectSz dev.regID →
    dev.buff (a - cfi.base dev.regID dev.sectID) = Nor.erased

/-- Synchronising after an erase leaves the content outside the sectors that meet
the range, exactly when the erase was safe. -/
theorem Coherent.erase_iff {dev : FlashDrv} {mem : Nat → UInt8} (h : Coherent cfi dev mem)
    {addr len : Nat} (hfit : EraseFits cfi addr len) (hfits : addr + len ≤ cfi.flashSz) :
    (∀ a, ¬Meets cfi addr len a →
        (flashdrvSync cfi (flashdrvErase cfi dev addr len).1).1.chip a = mem a) ↔
      EraseSafe cfi dev addr len := by
  by_cases hlen : len = 0
  · have hnothing : flashdrvErase cfi dev addr len = (dev, 0) := if_pos hlen
    obtain ⟨dev', hsync, hidle⟩ := h.sync
    rw [hnothing, hsync, hidle.chip]
    exact ⟨fun _ hne => absurd hlen hne, fun _ _ _ => rfl⟩
  · obtain ⟨dev', res, herase, hnone, hchip⟩ := flashdrvErase_spec hfit dev hlen hfits
    have hsync : flashdrvSync cfi dev' = (dev', EOK) := if_pos hnone
    rw [herase, hsync]
    cases h with
    | inl hidle =>
        refine ⟨fun _ _ hpos => absurd hidle.buffPos hpos, fun _ a hout => ?_⟩
        rw [hchip a hout, hidle.chip]
    | inr hbuf =>
        obtain ⟨_, hloaded, hpos, _⟩ := hbuf
        constructor
        · intro hkept _ _ a hout hlo hhi
          have hbyte := hkept a hout
          rw [hchip a hout, ← hloaded.content, patch_inside ⟨hlo, hhi⟩, ← hloaded.erased,
            Nor.erase, patch_inside ⟨hlo, hhi⟩] at hbyte
          exact hbyte.symm
        · intro hsafe a hout
          rw [hchip a hout, ← hloaded.content]
          by_cases hin : cfi.base dev.regID dev.sectID ≤ a ∧
              a < cfi.base dev.regID dev.sectID + cfi.sectSz dev.regID
          · rw [patch_inside hin, hsafe hlen (by omega) a hout hin.1 hin.2, ← hloaded.erased,
              Nor.erase, patch_inside hin]
          · rw [patch_outside hin]

theorem Meets.lt_flashSz {addr len a : Nat} (h : Meets cfi addr len a)
    (hfits : addr + len ≤ cfi.flashSz) : a < cfi.flashSz := by
  cases h with
  | inl hin => omega
  | inr hsector =>
      obtain ⟨b, id, sect, _, _, hid, hb, ha⟩ := hsector
      obtain ⟨hpos, hlt, hend⟩ := hid.sector
      have hsame : sectorOf cfi b id = sect := base_unique cfi id b (by omega) hb
      have hle := regStart_le cfi (id + 1)
      rw [hsame] at hend
      omega

/-- On a chip of one or two regions that start at multiples of their sector sizes
every range fits. -/
theorem eraseFits_of_le_two (h : cfi.regs.length ≤ 2)
    (haligned : ∀ id, id < cfi.regs.length → cfi.sectSz id ∣ flashdrvRegStart cfi id)
    {addr len : Nat} (hlen : len ≠ 0) (hfits : addr + len ≤ cfi.flashSz) :
    EraseFits cfi addr len := by
  refine ⟨fun id hid => ?_, fun a ha => found_of_le_two h ?_⟩
  · cases hid with
    | inl hid => exact haligned id hid.lt
    | inr hid => exact haligned id hid.lt
  · cases ha with
    | inl heq => omega
    | inr ha =>
        cases ha with
        | inl heq => omega
        | inr hborder => exact hborder.2.lt_flashSz hfits

end Zynq

/-- After every run of calls that the driver handles, an erase of a range and a
synchronisation leave every byte outside the sectors that meet the range with the
value the writes gave it, exactly when nothing newer than the chip is buffered
there. -/
theorem erases_keep_the_rest_iff (chip : Nat → UInt8) (addr len : Nat) :
    (∀ (nor : NorInfo) (s : FlashSession),
      Reachable (FlashSession.step nor) (FlashSession.Safe nor) (.init chip) s →
      addr + len ≤ nor.totalSz →
      ((∀ a, a < nor.totalSz → ¬Meets nor addr len a →
          (flashdrvSync nor (flashdrvErase nor s.dev addr len).1).1.chip a = s.content a) ↔
        EraseSafe nor s.dev addr len)) ∧
    (∀ (cfi : Zynq.FlashCfi) (buff : Nat → UInt8) (s : Zynq.FlashSession),
      Reachable (Zynq.FlashSession.step cfi) (Zynq.FlashSession.Fits cfi) (.init chip buff) s →
      Zynq.EraseFits cfi addr len → addr + len ≤ cfi.flashSz →
      ((∀ a, ¬Zynq.Meets cfi addr len a →
          (Zynq.flashdrvSync cfi (Zynq.flashdrvErase cfi s.dev addr len).1).1.chip a =
            s.content a) ↔
        Zynq.EraseSafe cfi s.dev addr len)) := by
  constructor
  · intro nor s hrun hfits
    exact (FlashSession.coherent_of_run hrun).erase_iff hfits
  · intro cfi buff s hrun hfit hfits
    exact (Zynq.FlashSession.coherent_of_run hrun).erase_iff hfit hfits

/-- Nothing is buffered when the second sector of a fresh device is erased. -/
theorem erases_keep_the_rest_iff_fresh :
    (∀ a, a < w25q16.totalSz → ¬Meets w25q16 0x1000 0x1000 a →
      (flashdrvSync w25q16 (flashdrvErase w25q16 (norDeviceInit fun _ => 0) 0x1000
        0x1000).1).1.chip a = 0) ∧
    (∀ a, ¬Zynq.Meets Zynq.n25q128 0x10000 0x10000 a →
      (Zynq.flashdrvSync Zynq.n25q128 (Zynq.flashdrvErase Zynq.n25q128
        (Zynq.flashdrvInit (fun _ => 0) fun _ => 0) 0x10000 0x10000).1).1.chip a = 0) := by
  constructor
  · refine ((erases_keep_the_rest_iff (fun _ => 0) 0x1000 0x1000).1 w25q16 (.init fun _ => 0) .init
      (by decide)).mpr ?_
    rw [EraseSafe, if_neg (by decide)]
    intro a ha _ hbuf
    exact absurd hbuf (sector_noAddr_ne w25q16 ha)
  · refine ((erases_keep_the_rest_iff (fun _ => 0) 0x10000 0x10000).2 Zynq.n25q128 (fun _ => 0)
      (.init (fun _ => 0) fun _ => 0) .init ?_ (by decide)).mpr ?_
    · refine Zynq.eraseFits_of_le_two (by decide) (fun id hid => ?_) (by decide) (by decide)
      have hzero : id = 0 := Nat.lt_one_iff.mp hid
      rw [hzero]
      exact Nat.dvd_zero _
    · intro _ hpos
      exact absurd rfl hpos

/-- A byte written to the first sector is lost when the second sector is erased
before a synchronisation, and with the driver for Zynq the rest of the first
sector as well. -/
theorem erase_loses_buffered_sector :
    (¬Meets w25q16 0x1000 0x1000 0 ∧
      (let s := (FlashSession.init (fun _ => NOR_ERASED_STATE)).step w25q16 (.write 0 [0])
      (flashdrvSync w25q16 (flashdrvErase w25q16 s.dev 0x1000 0x1000).1).1.chip 0 ≠
        s.content 0)) ∧
    (¬Zynq.Meets Zynq.n25q128 0x10000 0x10000 5 ∧
      (let s := (Zynq.FlashSession.init (fun _ => 0) (fun _ => 0)).step Zynq.n25q128 (.write 0 [1])
      (Zynq.flashdrvSync Zynq.n25q128 (Zynq.flashdrvErase Zynq.n25q128 s.dev 0x10000
        0x10000).1).1.chip 5 ≠ s.content 5)) := by
  refine ⟨⟨?_, by decide +kernel⟩, ?_, by decide +kernel⟩
  · intro hmeets
    obtain ⟨b, hlo, _, hb⟩ := hmeets
    have hsz : w25q16.sectorSz = 0x1000 := rfl
    rw [hsz] at hb
    omega
  · intro hmeets
    cases hmeets with
    | inl hin => omega
    | inr hsector =>
        obtain ⟨b, id, sect, hlo, _, hid, hb, ha⟩ := hsector
        have hzero : id = 0 := Nat.lt_one_iff.mp hid.lt
        have hsz : Zynq.n25q128.sectSz 0 = 0x10000 := rfl
        have hstart : Zynq.flashdrvRegStart Zynq.n25q128 0 = 0 := rfl
        rw [hzero, Zynq.FlashCfi.base, hstart, hsz] at hb ha
        omega

end Plo.Devices
