import Plo.Base.Window
import Plo.Devices.SectorContent

/-!
The flash driver for SPIMCTRL. In every run of writes, synchronisations and
erases of whole sectors the chip, overlaid with a buffer that is still to be
written back, is the plain array of bytes the calls make.
-/
namespace Plo.Devices.Spimctrl

structure NorInfo extends SectorGeometry where
  pageSz : Nat
  pageSz_dvd : pageSz ∣ sectorSz

def norDeviceInit (chip : Nat → UInt8) : SectorCache where
  chip := chip
  sectorBufAddr := noSector
  sectorBufDirty := false
  sectorBuf := fun _ => Nor.erased

variable (info : NorInfo)

def norPageProgram (chip : Nat → UInt8) (addr : Nat) (src : Nat → UInt8) : Nat → UInt8 :=
  Nor.program chip addr info.pageSz src

/-- A whole sector is erased and programmed page by page. -/
def fdrvDirectSectorWrite (chip : Nat → UInt8) (offs : Nat) (src : Nat → UInt8) :
    (Nat → UInt8) × Int :=
  ((List.range (info.sectorSz / info.pageSz)).foldl (fun chip page =>
      norPageProgram info chip (offs + page * info.pageSz)
        (fun i => src (page * info.pageSz + i)))
    (info.eraseSector chip offs), info.sectorSz)

def flashdrvSync (dev : SectorCache) : SectorCache × Int :=
  if dev.sectorBufAddr = noSector ∨ dev.sectorBufDirty = false then (dev, EOK)
  else
    match fdrvDirectSectorWrite info dev.chip dev.sectorBufAddr dev.sectorBuf with
    | (chip, res) =>
      if res < 0 then ({ dev with chip := chip }, res)
      else ({ dev with chip := chip, sectorBufDirty := false }, EOK)

def flashdrvWrite (dev : SectorCache) (offs : Nat) (data : List UInt8) : SectorCache × Int :=
  writeBuffered info.toSectorGeometry (fdrvDirectSectorWrite info) (flashdrvSync info) dev offs data

def eraseChip (dev : SectorCache) : SectorCache × Int :=
  ({ dev with sectorBufAddr := noSector, chip := Nor.erase dev.chip 0 info.totalSz }, info.totalSz)

def flashdrvErase (dev : SectorCache) (addr len : Nat) : SectorCache × Int :=
  eraseBuffered info.toSectorGeometry (eraseChip info) dev addr len

/-- How many bytes of a read are copied from the sector buffer. -/
def bufferedBytes (dev : SectorCache) (offs len : Nat) : Nat :=
  if info.getSectorAddress offs = dev.sectorBufAddr then
    min (dev.sectorBufAddr + info.sectorSz - offs) len
  else 0

def flashdrvRead (dev : SectorCache) (offs len : Nat) : List UInt8 × Int :=
  if fdrvIsValidAddress info.totalSz offs len = false then ([], -EINVAL)
  else if len = 0 then ([], 0)
  else
    let doneBytes := bufferedBytes info dev offs len
    let buff := slice dev.sectorBuf (offs - dev.sectorBufAddr) doneBytes
    if len = doneBytes then (buff, doneBytes)
    else (buff ++ slice dev.chip (offs + doneBytes) (len - doneBytes), len)

def call (dev : SectorCache) : SectorCall → SectorCache × Int
  | .write offs data => flashdrvWrite info dev offs data
  | .sync => flashdrvSync info dev
  | .erase addr len => flashdrvErase info dev addr len

/-- The chip overlaid with the buffered sector, when that is dirty. -/
def overlaid (dev : SectorCache) : Nat → UInt8 :=
  if dev.sectorBufAddr ≠ noSector ∧ dev.sectorBufDirty = true then
    patch dev.chip dev.sectorBufAddr info.sectorSz dev.sectorBuf
  else dev.chip

variable {info}

theorem fdrvDirectSectorWrite_spec (chip : Nat → UInt8) (offs : Nat) (src : Nat → UInt8)
    (h : info.sectorSz ∣ offs) :
    fdrvDirectSectorWrite info chip offs src =
      (patch chip offs info.sectorSz src, (info.sectorSz : Int)) := by
  have hpages := Nor.programPages_erase chip src offs info.pageSz_dvd
  rw [fdrvDirectSectorWrite, SectorGeometry.eraseSector, Nat.div_mul_cancel h, ← hpages]
  rfl

theorem flashdrvSync_spec (dev : SectorCache) (mem : Nat → UInt8)
    (h : dev.Holds info.toSectorGeometry mem) :
    ∃ dirty res, flashdrvSync info dev =
      ({ dev with chip := mem, sectorBufDirty := dirty }, res) ∧ 0 ≤ res := by
  rw [flashdrvSync]
  split
  · next hclean =>
    exact ⟨dev.sectorBufDirty, EOK, by rw [← h.chip_of_clean hclean], by decide⟩
  · next hdirty =>
    rw [not_or] at hdirty
    refine ⟨false, EOK, ?_, by decide⟩
    rw [fdrvDirectSectorWrite_spec _ _ _ (h.dvd_of_some hdirty.1), h.patched hdirty.1]
    exact if_neg (Int.not_lt.mpr (Int.natCast_nonneg _))

def ops (info : NorInfo) : SectorOps info.toSectorGeometry where
  directSectorWrite := fdrvDirectSectorWrite info
  sync := flashdrvSync info
  directSectorWrite_spec chip offs src h :=
    ⟨info.sectorSz, fdrvDirectSectorWrite_spec chip offs src h, Int.natCast_nonneg _⟩
  sync_spec := flashdrvSync_spec
  eraseChip := eraseChip info
  eraseChip_spec _ _ h := h.eraseAll

theorem flashdrvRead_spec {dev : SectorCache} {mem : Nat → UInt8}
    (h : dev.Holds info.toSectorGeometry mem) {offs len : Nat} (hfits : offs + len ≤ info.totalSz) :
    (flashdrvRead info dev offs len).1 = slice mem offs len ↔
      (info.getSectorAddress offs ≠ dev.sectorBufAddr →
        dev.AgreesOn info.toSectorGeometry offs (offs + len)) := by
  rw [← h.slice_chip_iff hfits]
  by_cases hlen : len = 0
  · subst hlen
    have hread : (flashdrvRead info dev offs 0).1 = [] := by
      rw [flashdrvRead]
      split <;> rfl
    simp [hread, slice]
  · have hlt : offs < info.totalSz := by omega
    have hvalid := fdrvIsValidAddress_of_le hlt hfits
    simp only [flashdrvRead, hvalid, Bool.true_eq_false, if_false, if_neg hlen]
    by_cases hbuf : info.getSectorAddress offs = dev.sectorBufAddr
    · obtain ⟨_, hsector, hsplit⟩ := info.sector_split hlt
      have hsome := info.ne_noSector hsector
      have hofs := info.sectorOfs_lt offs
      rw [hbuf] at hsome hsplit
      have hdone : bufferedBytes info dev offs len =
          min (dev.sectorBufAddr + info.sectorSz - offs) len := if_pos hbuf
      generalize bufferedBytes info dev offs len = doneBytes at hdone
      have hfront := h.slice_buffer hsome (by omega : dev.sectorBufAddr ≤ offs)
        (by omega : offs + doneBytes ≤ dev.sectorBufAddr + info.sectorSz)
      refine ⟨fun _ hne => absurd hbuf hne, fun _ => ?_⟩
      split
      · next hall => rw [hfront, hall]
      · have hback : slice dev.chip (offs + doneBytes) (len - doneBytes) =
            slice mem (offs + doneBytes) (len - doneBytes) := by
          rw [h.slice_chip_iff (by omega)]
          intro a hlo _ _ hend
          omega
        rw [hfront, hback, ← slice_add, Nat.add_sub_cancel' (by omega)]
    · have hzero : bufferedBytes info dev offs len = 0 := if_neg hbuf
      simp only [hzero, if_neg hlen, ne_eq, hbuf, not_false_eq_true, true_implies, Nat.add_zero,
        Nat.sub_zero]
      simp [slice]

theorem bufferedBytes_inside (dev : SectorCache) (offs len : Nat) :
    ∀ i, i < bufferedBytes info dev offs len → offs - dev.sectorBufAddr + i < info.sectorSz := by
  intro i hi
  rw [bufferedBytes] at hi
  split at hi
  · next hbuf =>
    have hle : info.getSectorAddress offs ≤ offs := Nat.and_le_left
    omega
  · omega

theorem call_eq : call info = (ops info).call := by
  funext dev c
  cases c <;> rfl

theorem overlaid_eq {dev : SectorCache} {mem : Nat → UInt8}
    (h : dev.Holds info.toSectorGeometry mem) : overlaid info dev = mem := by
  rw [overlaid]
  split
  · next hdirty => exact h.patched hdirty.1
  · next hclean =>
    by_cases hnone : dev.sectorBufAddr = noSector
    · exact h.chip_of_none hnone
    · exact h.clean (by simpa [hnone] using hclean)

/-- The driver after `nor_deviceInit`, and the array it starts from. -/
def session (chip : Nat → UInt8) : SectorSession := ⟨norDeviceInit chip, chip⟩

theorem session_holds {chip : Nat → UInt8} {s : SectorSession}
    (hrun : Reachable (SectorSession.step (call info))
      (fun _ c => c.InRange info.toSectorGeometry) (session chip) s) :
    s.dev.Holds info.toSectorGeometry s.content :=
  (ops info).runs_hold SectorCache.Holds.of_none (call_eq ▸ hrun)

/-- In every run the chip overlaid with the dirty buffer is the array the calls
make, and a synchronisation leaves that array on the chip. -/
theorem runs_are_a_byte_store (info : NorInfo) (chip : Nat → UInt8) (s : SectorSession)
    (hrun : Reachable (SectorSession.step (call info))
      (fun _ c => c.InRange info.toSectorGeometry) (session chip) s) :
    overlaid info s.dev = s.content ∧ (flashdrvSync info s.dev).1.chip = s.content := by
  have h := session_holds hrun
  obtain ⟨dirty, res, hsync, _⟩ := flashdrvSync_spec s.dev s.content h
  exact ⟨overlaid_eq h, by rw [hsync]⟩

def s25fl128s : NorInfo where
  totalSz := 16 * 1024 * 1024
  sectorSz := 0x10000
  pageSz := 0x100
  sectorSz_pow := ⟨16, rfl⟩
  sectorSz_dvd := by decide
  totalSz_pos := by decide
  totalSz_lt := by decide
  pageSz_dvd := by decide

/-- Bytes written over a border of sectors, of which the first one is erased. -/
theorem runs_are_a_byte_store_border :
    let s := [SectorCall.write 0xffff [1, 2], .erase 0 0x10000].foldl
      (SectorSession.step (call s25fl128s)) (session fun _ => 0)
    (flashdrvSync s25fl128s s.dev).1.chip = s.content := by
  intro s
  refine (runs_are_a_byte_store s25fl128s (fun _ => 0) s ?_).2
  refine Reachable.step (.step .init ?_) ?_
  · exact ⟨by decide, by decide⟩
  · exact ⟨by decide, by decide, by decide⟩

end Plo.Devices.Spimctrl
