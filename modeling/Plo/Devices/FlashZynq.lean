import Plo.Base.Nor
import Plo.Base.Run
import Plo.Base.Word
import Plo.Lib.Types

/-!
The flash driver for Zynq. The chip is divided into regions, each with sectors of
one size, as its CFI tables say. A write reads the sector it falls into into the
buffer and erases the sector on the chip; from then on the only copy of the
sector is in the buffer, until all of the buffer is programmed. The position
where the next bytes go is kept from one write to the next. The chip never fails.
-/
namespace Plo.Devices.Zynq

structure CfiRegion where
  count : Nat
  size : Nat

def CfiRegion.sectSz (r : CfiRegion) : Nat := r.size * 0x100

def CfiRegion.regionSz (r : CfiRegion) : Nat := r.sectSz * (r.count + 1)

/-- There is a command to erase sectors of 4 kB and of 64 kB. -/
def hasEraseCmd (sectSz : Nat) : Bool := sectSz == 0x1000 || sectSz == 0x10000

theorem hasEraseCmd_pos {sectSz : Nat} (h : hasEraseCmd sectSz = true) : 0 < sectSz := by
  simp only [hasEraseCmd, Bool.or_eq_true, beq_iff_eq] at h
  omega

/-- What the driver uses of `flash_cfi_t`. The sectors are of the sizes there is a
command to erase, pages divide them, and the regions make up the chip. -/
structure FlashCfi where
  chipSize : Nat
  pageSize : Nat
  regs : List CfiRegion
  chipSize_lt : chipSize < 32
  pageSize_le : pageSize ≤ 12
  regs_le : regs.length ≤ 4
  sectSz_eq : ∀ r ∈ regs, hasEraseCmd r.sectSz = true
  regs_sum : (regs.map CfiRegion.regionSz).sum = 2 ^ chipSize

/-- The chip and the part of `fdrv_common` that describes the buffer. -/
structure FlashDrv where
  chip : Nat → UInt8
  buff : Nat → UInt8
  buffPos : Nat
  regID : Nat
  sectID : Nat

/-- `(u32)-1`, the numbers while no sector is buffered. -/
abbrev noID : Nat := 2 ^ 32 - 1

def flashdrvInit (chip buff : Nat → UInt8) : FlashDrv where
  chip := chip
  buff := buff
  buffPos := 0
  regID := noID
  sectID := noID

variable (cfi : FlashCfi)

abbrev FlashCfi.flashSz : Nat := 2 ^ cfi.chipSize
abbrev FlashCfi.pageSz : Nat := 2 ^ cfi.pageSize

/-- `CFI_SIZE_SECTION(cfi->regs[id].size)`. -/
def FlashCfi.sectSz (id : Nat) : Nat := (cfi.regs.getD id ⟨0, 0⟩).sectSz

def flashdrvRegStart (id : Nat) : Nat := ((cfi.regs.take id).map CfiRegion.regionSz).sum

/-- The loop of `flashdrv_regionFind`. The next region is taken to start at the
size of this one. -/
def regionFindFrom (offs : Nat) : List CfiRegion → Nat → Nat → Option Nat
  | [], _, _ => none
  | r :: regs, start, i =>
    if start ≤ offs ∧ offs < start + r.regionSz then some i
    else regionFindFrom offs regs r.regionSz (i + 1)

def flashdrvRegionFind (offs : Nat) : Option Nat := regionFindFrom offs cfi.regs 0 0

def flashdrvSectorErase (dev : FlashDrv) (offs sectSz : Nat) : FlashDrv × Int :=
  if offs > cfi.flashSz then (dev, -EINVAL)
  else if hasEraseCmd sectSz then
    ({ dev with chip := Nor.erase dev.chip offs sectSz }, EOK)
  else (dev, -EINVAL)

def flashdrvSync (dev : FlashDrv) : FlashDrv × Int :=
  if dev.buffPos = 0 then (dev, EOK)
  else
    let sectSz := cfi.sectSz dev.regID
    let base := flashdrvRegStart cfi dev.regID + dev.sectID * sectSz
    ({ dev with
        chip := (List.range (sectSz / cfi.pageSz)).foldl (fun chip i =>
          Nor.program chip (base + i * cfi.pageSz) cfi.pageSz
            (fun k => dev.buff (i * cfi.pageSz + k))) dev.chip
        regID := noID
        sectID := noID
        buffPos := 0 }, EOK)

/-- How far into the region the offset is; a word, as it is computed. -/
def regionOfs (offs regID : Nat) : Nat := (offs + 2 ^ 32 - flashdrvRegStart cfi regID) % 2 ^ 32

def sectorOf (offs regID : Nat) : Nat := regionOfs cfi offs regID / cfi.sectSz regID

/-- A sector is read into the buffer and erased on the chip. -/
def loadSector (dev : FlashDrv) (offs regID : Nat) : FlashDrv × Int :=
  let sectSz := cfi.sectSz regID
  let sectID := sectorOf cfi offs regID
  let base := (flashdrvRegStart cfi regID + sectSz * sectID) % 2 ^ 32
  let erased := flashdrvSectorErase cfi
    { dev with buff := patch dev.buff 0 sectSz (fun i => dev.chip (base + i)) } base sectSz
  if erased.2 < 0 then erased
  else
    ({ erased.1 with
        regID := regID
        sectID := sectID
        buffPos := regionOfs cfi offs regID - sectID * sectSz }, EOK)

/-- The part of the loop of `flashdrv_write` that changes to another sector. -/
def enterSector (dev : FlashDrv) (offs regID : Nat) : FlashDrv × Int :=
  if regID ≠ dev.regID ∨ sectorOf cfi offs regID ≠ dev.sectID then
    match flashdrvSync cfi dev with
    | (dev, res) => if res < 0 then (dev, res) else loadSector cfi dev offs regID
  else (dev, EOK)

/-- The copy into the buffer, which is programmed when it is full. -/
def fillBuffer (dev : FlashDrv) (sectSz : Nat) (chunk : List UInt8) : FlashDrv × Int :=
  let dev := { dev with
    buff := overlay dev.buff dev.buffPos chunk
    buffPos := dev.buffPos + chunk.length }
  if dev.buffPos < sectSz then (dev, EOK) else flashdrvSync cfi dev

/-- The loop of `flashdrv_write`; no result when the rounds given are used up. -/
def writeLoop : Nat → FlashDrv → Nat → List UInt8 → FlashDrv × Option Int
  | 0, dev, _, _ => (dev, none)
  | fuel + 1, dev, offs, data =>
    if data = [] then (dev, some EOK)
    else
      match flashdrvRegionFind cfi offs with
      | none => (dev, some (-EINVAL))
      | some regID =>
        match enterSector cfi dev offs regID with
        | (dev, res) =>
          if res < 0 then (dev, some res)
          else
            let chunkSz := min (cfi.sectSz regID - dev.buffPos) data.length
            match fillBuffer cfi dev (cfi.sectSz regID) (data.take chunkSz) with
            | (dev, res) =>
              if res < 0 then (dev, some res)
              else writeLoop fuel dev ((offs + chunkSz) % 2 ^ 32) (data.drop chunkSz)

def flashdrvWrite (dev : FlashDrv) (offs : Nat) (data : List UInt8) : FlashDrv × Option Int :=
  if data = [] then (dev, some 0)
  else if (offs + data.length) % 2 ^ 32 > cfi.flashSz then (dev, some (-EINVAL))
  else
    -- a round takes at least one byte, or empties a full buffer
    match writeLoop cfi (2 * data.length + 1) dev offs data with
    | (dev, res) => (dev, res.map fun res => if res < 0 then res else data.length)

/-- The loop of `flashdrv_erase` over the sectors. -/
def eraseLoop (dev : FlashDrv) (addr end_ len : Nat) : FlashDrv × Int :=
  if addr < end_ then
    match flashdrvRegionFind cfi addr with
    | none => (dev, -EINVAL)
    | some id =>
      if _h : addr ≤ cfi.flashSz ∧ hasEraseCmd (cfi.sectSz id) = true then
        eraseLoop (flashdrvSectorErase cfi dev addr (cfi.sectSz id)).1 (addr + cfi.sectSz id) end_
          (len + cfi.sectSz id)
      else flashdrvSectorErase cfi dev addr (cfi.sectSz id)
  else (dev, len)
  termination_by end_ - addr
  decreasing_by
    have hpos := hasEraseCmd_pos _h.2
    omega

/-- The address rounded down to a multiple of `sectSz`. -/
def alignDown (addr sectSz : Nat) : Nat := addr &&& (2 ^ 32 - sectSz)

def flashdrvErase (dev : FlashDrv) (addr len : Nat) : FlashDrv × Int :=
  if len = 0 then (dev, 0)
  else
    -- the buffer is dropped, whichever sector it holds
    let dev := { dev with regID := noID, sectID := noID, buffPos := 0 }
    if len = 2 ^ 32 - 1 then
      ({ dev with chip := Nor.erase dev.chip 0 cfi.flashSz }, cfi.flashSz)
    else if (addr + len) % 2 ^ 32 > cfi.flashSz then (dev, -EINVAL)
    else
      let end_ := (addr + len) % 2 ^ 32
      match flashdrvRegionFind cfi ((end_ + 2 ^ 32 - 1) % 2 ^ 32) with
      | none => (dev, -EINVAL)
      | some last =>
        let end_ := alignDown ((end_ + cfi.sectSz last - 1) % 2 ^ 32) (cfi.sectSz last)
        match flashdrvRegionFind cfi addr with
        | none => (dev, -EINVAL)
        | some first => eraseLoop cfi dev (alignDown addr (cfi.sectSz first)) end_ 0

end Plo.Devices.Zynq
