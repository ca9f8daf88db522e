import Plo.Devices.SectorContent

/-!
The flash driver for FTMCTRL. It differs from the one for SPIMCTRL in how a
sector is programmed, in that the flag of the buffer is never cleared, and in the
read, which copies all of a range from the sector buffer when the range starts in
the buffered sector.
-/
namespace Plo.Devices.Ftmctrl

/-- What `CFI_SIZE` makes of a size. -/
abbrev cfiSize (size : Nat) : Nat := 2 ^ size

/-- The width of the port or of the chip in bits, 8 or 16. -/
inductive Width
  | w8
  | w16
  deriving DecidableEq

def Width.bytes : Width → Nat
  | .w8 => 1
  | .w16 => 2

/-- What the driver uses of the answer to the CFI query and of the model. -/
structure CfiInfo where
  chipSz : Nat
  chipSz_lt : chipSz < 32
  /-- `regions[0].count`, one less than the number of sectors. -/
  regionCount : Nat
  regionCount_pow : ∃ k, k ≤ chipSz ∧ regionCount + 1 = 2 ^ k
  bufSz : Nat
  chipWidth : Width
  portWidth : Width
  /-- The model has an operation that erases the whole chip. -/
  chipErase : Bool

namespace CfiInfo

def sectorSz (cfi : CfiInfo) : Nat := cfiSize cfi.chipSz / (cfi.regionCount + 1)

/-- How many bytes `fdrv_directSectorWrite` programs at once. -/
def bytecount (cfi : CfiInfo) : Nat :=
  cfiSize cfi.bufSz >>> (if cfi.chipWidth = .w16 ∧ cfi.portWidth = .w8 then 1 else 0)

theorem sectorSz_pow (cfi : CfiInfo) : ∃ k, k ≤ cfi.chipSz ∧ cfi.sectorSz = 2 ^ k := by
  obtain ⟨k, hk, hcount⟩ := cfi.regionCount_pow
  refine ⟨cfi.chipSz - k, Nat.sub_le _ _, ?_⟩
  rw [sectorSz, hcount, cfiSize, Nat.pow_div hk (by decide)]

def geometry (cfi : CfiInfo) : SectorGeometry where
  totalSz := cfiSize cfi.chipSz
  sectorSz := cfi.sectorSz
  sectorSz_pow := cfi.sectorSz_pow.imp fun _ h => h.2
  sectorSz_dvd := by
    obtain ⟨k, hk, hsector⟩ := cfi.sectorSz_pow
    rw [hsector]
    exact Nat.pow_dvd_pow 2 hk
  totalSz_pos := Nat.two_pow_pos _
  totalSz_lt := Nat.pow_lt_pow_right (by decide) cfi.chipSz_lt

end CfiInfo

/-- The write buffer of the chip is made of words, and a sector of write buffers. -/
structure FlashDevice extends CfiInfo where
  bytes_dvd : portWidth.bytes ∣ toCfiInfo.bytecount
  bytecount_dvd : toCfiInfo.bytecount ∣ toCfiInfo.sectorSz

/-- The loop of `flash_writeBuffer` over the words in front that are all ones;
`i` counts bytes. -/
def skipErased (width : Width) (data : Nat → UInt8) (len i : Nat) : Nat :=
  if i < len ∧ (List.range width.bytes).all (fun k => data (i + k) == 0xff) then
    skipErased width data len (i + width.bytes)
  else i
  termination_by len - i
  decreasing_by
    cases width <;> simp only [Width.bytes] <;> omega

def flashWriteBuffer (width : Width) (chip : Nat → UInt8) (addr : Nat) (data : Nat → UInt8)
    (len : Nat) : Nat → UInt8 :=
  let i := skipErased width data len 0
  Nor.program chip (addr + i) (len - i) (fun k => data (i + k))

variable (dev : FlashDevice)

def fdrvDirectSectorWrite (chip : Nat → UInt8) (offs : Nat) (src : Nat → UInt8) :
    (Nat → UInt8) × Int :=
  ((List.range (dev.sectorSz / dev.bytecount)).foldl (fun chip n =>
      flashWriteBuffer dev.portWidth chip (offs + n * dev.bytecount)
        (fun i => src (n * dev.bytecount + i)) dev.bytecount)
    (dev.geometry.eraseSector chip offs), dev.sectorSz)

def flashdrvSync (s : SectorCache) : SectorCache × Int :=
  if s.sectorBufAddr = noSector ∨ s.sectorBufDirty = false then (s, EOK)
  else
    match fdrvDirectSectorWrite dev s.chip s.sectorBufAddr s.sectorBuf with
    | (chip, res) => ({ s with chip := chip }, res)

def flashdrvWrite (s : SectorCache) (offs : Nat) (data : List UInt8) : SectorCache × Int :=
  writeBuffered dev.geometry (fdrvDirectSectorWrite dev) (flashdrvSync dev) s offs data

/-- A model without an operation for it has the chip erased sector by sector. -/
def eraseChip (s : SectorCache) : SectorCache × Int :=
  let s := { s with sectorBufAddr := noSector }
  if dev.chipErase then
    ({ s with chip := Nor.erase s.chip 0 (cfiSize dev.chipSz) }, cfiSize dev.chipSz)
  else eraseSectors dev.geometry s 0 (cfiSize dev.chipSz) 0

def flashdrvErase (s : SectorCache) (addr len : Nat) : SectorCache × Int :=
  eraseBuffered dev.geometry (eraseChip dev) s addr len

/-- How many bytes of a read are copied from the sector buffer: all of them, as
soon as the first one is in the buffered sector. -/
def bufferedBytes (s : SectorCache) (offs len : Nat) : Nat :=
  if s.sectorBufAddr = dev.geometry.getSectorAddress offs then len else 0

def flashdrvRead (s : SectorCache) (offs len : Nat) : List UInt8 × Int :=
  if fdrvIsValidAddress (cfiSize dev.chipSz) offs len = false then ([], -EINVAL)
  else if len = 0 then ([], 0)
  else if s.sectorBufAddr = dev.geometry.getSectorAddress offs then
    (slice s.sectorBuf (offs - s.sectorBufAddr) (bufferedBytes dev s offs len), len)
  else (slice s.chip offs len, len)

def flashdrvInit (chip : Nat → UInt8) : SectorCache where
  chip := chip
  sectorBufAddr := noSector
  sectorBufDirty := false
  sectorBuf := fun _ => 0xff

def call (s : SectorCache) : SectorCall → SectorCache × Int
  | .write offs data => flashdrvWrite dev s offs data
  | .sync => flashdrvSync dev s
  | .erase addr len => flashdrvErase dev s addr len

/-- The driver after `flashdrv_init`, and the array it starts from. -/
def session (chip : Nat → UInt8) : SectorSession := ⟨flashdrvInit chip, chip⟩

theorem skipErased_spec (width : Width) (data : Nat → UInt8) (len i : Nat)
    (hdvd : width.bytes ∣ len) (hi : width.bytes ∣ i) (hle : i ≤ len) :
    i ≤ skipErased width data len i ∧ skipErased width data len i ≤ len ∧
      ∀ k, i ≤ k → k < skipErased width data len i → data k = 0xff := by
  fun_induction skipErased width data len i with
  | case1 i hword ih =>
      have hnext := add_le_of_dvd_of_lt hi hdvd hword.1
      obtain ⟨hlo, hhi, hones⟩ := ih (Nat.dvd_add hi (Nat.dvd_refl _)) hnext
      refine ⟨by omega, hhi, ?_⟩
      intro k hik hk
      by_cases hin : k < i + width.bytes
      · have hall := List.all_eq_true.mp hword.2 (k - i) (List.mem_range.mpr (by omega))
        rw [Nat.add_sub_cancel' hik] at hall
        exact beq_iff_eq.mp hall
      · exact hones k (by omega) hk
  | case2 i hword => exact ⟨Nat.le_refl _, hle, fun k hik hk => absurd hk (Nat.not_lt.mpr hik)⟩

/-- Leaving out ones in front makes no difference to what is programmed. -/
theorem flashWriteBuffer_eq {width : Width} (chip : Nat → UInt8) (addr : Nat)
    (data : Nat → UInt8) {len : Nat} (hdvd : width.bytes ∣ len) :
    flashWriteBuffer width chip addr data len = Nor.program chip addr len data := by
  obtain ⟨_, hle, hones⟩ :=
    skipErased_spec width data len 0 hdvd (Nat.dvd_zero _) (Nat.zero_le _)
  simp only [flashWriteBuffer]
  generalize skipErased width data len 0 = i at hle hones ⊢
  funext a
  simp only [Nor.program]
  by_cases hin : addr + i ≤ a ∧ a < addr + i + (len - i)
  · have hsub : i + (a - (addr + i)) = a - addr := by omega
    rw [if_pos hin, if_pos (by omega), hsub]
  · rw [if_neg hin]
    split
    · next hfront => rw [hones _ (by omega) (by omega), ← Nor.erased, Nor.and_erased]
    · rfl

variable {dev}

theorem fdrvDirectSectorWrite_spec (chip : Nat → UInt8) (offs : Nat) (src : Nat → UInt8)
    (h : dev.sectorSz ∣ offs) :
    fdrvDirectSectorWrite dev chip offs src =
      (patch chip offs dev.sectorSz src, (dev.sectorSz : Int)) := by
  have hpages := Nor.programPages_erase chip src offs dev.bytecount_dvd
  rw [fdrvDirectSectorWrite, SectorGeometry.eraseSector, ← hpages]
  simp only [flashWriteBuffer_eq _ _ _ dev.bytes_dvd]
  rw [CfiInfo.geometry, Nat.div_mul_cancel h]
  rfl

theorem flashdrvSync_spec (s : SectorCache) (mem : Nat → UInt8) (h : s.Holds dev.geometry mem) :
    ∃ dirty res, flashdrvSync dev s = ({ s with chip := mem, sectorBufDirty := dirty }, res) ∧
      0 ≤ res := by
  rw [flashdrvSync]
  split
  · next hclean => exact ⟨s.sectorBufDirty, EOK, by rw [← h.chip_of_clean hclean], by decide⟩
  · next hdirty =>
    rw [not_or] at hdirty
    have hpatched := h.patched hdirty.1
    refine ⟨s.sectorBufDirty, dev.sectorSz, ?_, Int.natCast_nonneg _⟩
    rw [fdrvDirectSectorWrite_spec _ _ _ (h.dvd_of_some hdirty.1), ← hpatched]
    rfl

theorem eraseChip_spec (s : SectorCache) (mem : Nat → UInt8) (h : s.Holds dev.geometry mem) :
    (eraseChip dev s).1.Holds dev.geometry (Nor.erase mem 0 dev.geometry.totalSz) := by
  simp only [eraseChip]
  split
  · exact h.eraseAll
  · obtain ⟨n, hn⟩ := dev.geometry.sectorSz_dvd
    rw [Nat.mul_comm] at hn
    have hempty : SectorCache.Holds dev.geometry { s with sectorBufAddr := noSector } s.chip :=
      SectorCache.Holds.of_none
    obtain ⟨s', hloop, hs'⟩ := eraseSectors_spec n hempty 0 (Nat.dvd_zero _) (by omega)
    have htotal : cfiSize dev.chipSz = 0 + n * dev.geometry.sectorSz := by
      rw [Nat.zero_add, ← hn]
      rfl
    rw [htotal, hloop, ← h.erase_chip_eq, hn]
    exact hs'

def ops (dev : FlashDevice) : SectorOps dev.geometry where
  directSectorWrite := fdrvDirectSectorWrite dev
  sync := flashdrvSync dev
  directSectorWrite_spec chip offs src h :=
    ⟨dev.sectorSz, fdrvDirectSectorWrite_spec chip offs src h, Int.natCast_nonneg _⟩
  sync_spec := flashdrvSync_spec
  eraseChip := eraseChip dev
  eraseChip_spec := eraseChip_spec

theorem call_eq : call dev = (ops dev).call := by
  funext s c
  cases c <;> rfl

theorem session_holds {chip : Nat → UInt8} {s : SectorSession}
    (hrun : Reachable (SectorSession.step (call dev)) (fun _ c => c.InRange dev.geometry)
      (session chip) s) :
    s.dev.Holds dev.geometry s.content :=
  (ops dev).runs_hold SectorCache.Holds.of_none (call_eq ▸ hrun)

/-- A range that starts in the buffered sector must end in it, and of another one
the chip must have what the buffer has. -/
theorem flashdrvRead_spec {s : SectorCache} {mem : Nat → UInt8} (h : s.Holds dev.geometry mem)
    {offs len : Nat} (hfits : offs + len ≤ dev.geometry.totalSz) :
    ((flashdrvRead dev s offs len).1 = slice mem offs len ∧
        ∀ i, i < bufferedBytes dev s offs len → offs - s.sectorBufAddr + i < dev.sectorSz) ↔
      if dev.geometry.getSectorAddress offs = s.sectorBufAddr then
        len = 0 ∨ offs + len ≤ s.sectorBufAddr + dev.sectorSz
      else s.AgreesOn dev.geometry offs (offs + len) := by
  by_cases hlen : len = 0
  · subst hlen
    have hread : (flashdrvRead dev s offs 0).1 = [] := by
      rw [flashdrvRead]
      split <;> rfl
    have hnone : bufferedBytes dev s offs 0 = 0 := by
      rw [bufferedBytes, ite_self]
    refine ⟨fun _ => ?_, fun _ => ⟨by rw [hread]; rfl, ?_⟩⟩
    · split
      · exact Or.inl rfl
      · intro a hlo hhi
        omega
    · intro i hi
      omega
  · have hlt : offs < dev.geometry.totalSz := by omega
    have hvalid : fdrvIsValidAddress (cfiSize dev.chipSz) offs len = true :=
      fdrvIsValidAddress_of_le hlt hfits
    simp only [flashdrvRead, bufferedBytes, hvalid, Bool.true_eq_false, if_false, if_neg hlen]
    by_cases hbuf : s.sectorBufAddr = dev.geometry.getSectorAddress offs
    · obtain ⟨_, hsector, hsplit⟩ := dev.geometry.sector_split hlt
      have hsome := dev.geometry.ne_noSector hsector
      rw [← hbuf] at hsome hsplit
      simp only [if_pos hbuf, if_pos hbuf.symm, hlen, false_or]
      constructor
      · intro hright
        have hlast := hright.2 (len - 1) (by omega)
        omega
      · intro hend
        exact ⟨h.slice_buffer hsome (by omega) hend, fun i hi => by omega⟩
    · simp only [if_neg hbuf, if_neg (Ne.symm hbuf), Nat.not_lt_zero, false_implies, implies_true,
        and_true]
      exact h.slice_chip_iff hfits

end Plo.Devices.Ftmctrl
