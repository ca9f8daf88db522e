import Plo.Base.Overlay
import Plo.Base.Word
import Plo.Lib.Types

/-!
The i.MX RT driver of a NOR flash chip. Writes go into a buffer that holds one
sector; the buffer is written back when a write leaves the sector and when the
driver is told to synchronise. Two addresses keep the state of the buffer: the
one for which the sector was read, and the one for which it was last written
back. The chip is ideal: an erase sets a sector to ones, programming a page
clears bits, a read returns the content, and none of them fails. Addresses and
sizes are 32-bit words, kept as numbers.
-/
namespace Plo.Devices

def NOR_ERASED_STATE : UInt8 := 0xff
abbrev NOR_SECTORSZ_MAX : Nat := 0x1000

/-- The geometry in `struct nor_info`, as the entries of the table of known
chips have it. -/
structure NorInfo where
  totalSz : Nat
  pageSz : Nat
  sectorSz : Nat
  sectorSz_le : sectorSz ≤ NOR_SECTORSZ_MAX
  sectorSz_pow : ∃ k, sectorSz = 2 ^ k
  pageSz_pos : 0 < pageSz
  pageSz_dvd : pageSz ∣ sectorSz
  sectorSz_dvd : sectorSz ∣ totalSz
  totalSz_kib : 1024 ∣ totalSz
  totalSz_lt : totalSz < 2 ^ 32

/-- What `flexspi_setFlashSize` keeps of the size of the chip. -/
def NorInfo.slFlashSz (nor : NorInfo) : Nat :=
  ((nor.totalSz >>> 10) &&& (2 ^ 22 - 1)) <<< 10

/-- `(addr_t)-1`. -/
abbrev noAddr : Nat := 2 ^ 32 - 1

/-- The content of the chip and the fields of `struct nor_device` the driver
works with. -/
structure NorDevice where
  chip : Nat → UInt8
  active : Bool
  sectorPrevAddr : Nat
  sectorSyncAddr : Nat
  sectorBuf : Nat → UInt8

def norDeviceInit (chip : Nat → UInt8) : NorDevice where
  chip := chip
  active := true
  sectorPrevAddr := noAddr
  sectorSyncAddr := noAddr
  sectorBuf := fun _ => NOR_ERASED_STATE

variable (nor : NorInfo)

def getSectorIdFromAddress (addr : Nat) : Nat := addr / nor.sectorSz

def getSectorAddress (addr : Nat) : Nat := addr &&& (2 ^ 32 - nor.sectorSz)

def norEraseSector (chip : Nat → UInt8) (addr : Nat) : Nat → UInt8 := fun a =>
  if a / nor.sectorSz = addr / nor.sectorSz then NOR_ERASED_STATE else chip a

def norPageProgram (chip : Nat → UInt8) (dstAddr : Nat) (src : Nat → UInt8) : Nat → UInt8 :=
  fun a =>
    if dstAddr ≤ a ∧ a < dstAddr + nor.pageSz then chip a &&& src (a - dstAddr) else chip a

def norReadData (chip : Nat → UInt8) (addr : Nat) : Nat → UInt8 := fun i => chip (addr + i)

/-- The loops that look for a byte that is not all ones. -/
def isErased (buf : Nat → UInt8) (sz : Nat) : Bool :=
  (List.range sz).all (fun pos => buf pos == NOR_ERASED_STATE)

/-- The loop of `flashdrv_sync` over the pages; `n` is the page number. -/
def programPage (sectorAddr : Nat) (buf : Nat → UInt8) (chip : Nat → UInt8) (n : Nat) :
    Nat → UInt8 :=
  let ofs := n * nor.pageSz
  if isErased (fun pos => buf (ofs + pos)) nor.pageSz then chip
  else norPageProgram nor chip (sectorAddr + ofs) (fun pos => buf (ofs + pos))

def flashdrvSync (dev : NorDevice) : NorDevice × Int :=
  let sectorAddr := getSectorAddress nor dev.sectorPrevAddr
  if !dev.active then (dev, - ENXIO)
  else if dev.sectorPrevAddr = noAddr then (dev, EOK)
  else if dev.sectorPrevAddr = dev.sectorSyncAddr then (dev, EOK)
  else
    let chip :=
      if isErased dev.sectorBuf nor.sectorSz then dev.chip
      else norEraseSector nor dev.chip sectorAddr
    let chip := (List.range (nor.sectorSz / nor.pageSz)).foldl
      (programPage nor sectorAddr dev.sectorBuf) chip
    ({ dev with chip := chip, sectorSyncAddr := dev.sectorPrevAddr }, nor.sectorSz)

def bufferSync (dev : NorDevice) (dstAddr : Nat) (isLast : Bool) : NorDevice × Int :=
  let sectorLast := getSectorIdFromAddress nor dev.sectorPrevAddr
  let sectorCurr := getSectorIdFromAddress nor dstAddr
  if sectorCurr ≠ sectorLast then
    match flashdrvSync nor dev with
    | (dev, res) =>
      if res < 0 then (dev, res)
      else
        let dev := if nor.totalSz ≤ dstAddr then
            { dev with sectorPrevAddr := noAddr, sectorSyncAddr := noAddr } else dev
        if isLast then (dev, res)
        else if nor.totalSz < (dstAddr + nor.sectorSz) % 2 ^ 32 then (dev, - EIO)
        else
          ({ dev with
              sectorBuf := norReadData dev.chip (getSectorAddress nor dstAddr)
              sectorPrevAddr := dstAddr }, nor.sectorSz)
  else (dev, 0)

def sectorOfs (dstAddr : Nat) : Nat := dstAddr &&& (nor.sectorSz - 1)

/-- How many of the bytes left go into the sector of `dstAddr`. -/
def chunkSz (dstAddr size : Nat) : Nat :=
  if size > nor.sectorSz - sectorOfs nor dstAddr then nor.sectorSz - sectorOfs nor dstAddr
  else size

theorem NorInfo.sectorSz_pos : 0 < nor.sectorSz := by
  obtain ⟨k, hk⟩ := nor.sectorSz_pow
  rw [hk]
  exact Nat.two_pow_pos k

theorem sectorOfs_eq (dstAddr : Nat) : sectorOfs nor dstAddr = dstAddr % nor.sectorSz := by
  obtain ⟨k, hk⟩ := nor.sectorSz_pow
  rw [sectorOfs, hk, Nat.and_two_pow_sub_one_eq_mod]

theorem sectorOfs_lt (dstAddr : Nat) : sectorOfs nor dstAddr < nor.sectorSz := by
  rw [sectorOfs_eq]
  exact Nat.mod_lt _ nor.sectorSz_pos

theorem chunkSz_pos (dstAddr : Nat) {size : Nat} (h : 0 < size) :
    0 < chunkSz nor dstAddr size := by
  have hofs := sectorOfs_lt nor dstAddr
  simp only [chunkSz]
  split <;> omega

/-- The `hal_memcpy` into the buffer, at the offset of `dstAddr`. -/
def copyChunk (dev : NorDevice) (dstAddr : Nat) (chunk : List UInt8) : NorDevice :=
  { dev with sectorBuf := overlay dev.sectorBuf (sectorOfs nor dstAddr) chunk }

/-- The loop of `flashdrv_write`: the device, the address after the bytes
written, and the result. -/
def writeLoop (dev : NorDevice) (dstAddr : Nat) (data : List UInt8) : NorDevice × Nat × Int :=
  if _h : data = [] then (dev, dstAddr, EOK)
  else
    match bufferSync nor dev dstAddr false with
    | (dev, res) =>
      if res < 0 then (dev, dstAddr, res)
      else
        let chunk := chunkSz nor dstAddr data.length
        writeLoop (copyChunk nor dev dstAddr (data.take chunk)) ((dstAddr + chunk) % 2 ^ 32)
          (data.drop chunk)
  termination_by data.length
  decreasing_by
    have hpos := chunkSz_pos nor dstAddr (List.length_pos_iff.mpr _h)
    have hlen := List.length_pos_iff.mpr _h
    simp only [List.length_drop]
    omega

def flashdrvWrite (dev : NorDevice) (dstAddr : Nat) (data : List UInt8) : NorDevice × Int :=
  if !dev.active then (dev, - ENXIO)
  else if (dstAddr + data.length) % 2 ^ 32 > nor.slFlashSz then (dev, -EINVAL)
  else if data = [] then (dev, 0)
  else
    match writeLoop nor dev dstAddr data with
    | (dev, dstAddr, res) =>
      if res < 0 then (dev, res)
      else
        match bufferSync nor dev dstAddr true with
        | (dev, res) => if res < 0 then (dev, res) else (dev, data.length)

/-- The loop of `flashdrv_erase` over the sectors from `addr` to `end_`, both of
them at a border of sectors, so that the address does not wrap around. -/
def eraseLoop (dev : NorDevice) (addr end_ len : Nat) : NorDevice × Int :=
  if addr < end_ then
    eraseLoop { dev with chip := norEraseSector nor dev.chip addr } (addr + nor.sectorSz) end_
      (len + nor.sectorSz)
  else (dev, len)
  termination_by end_ - addr
  decreasing_by
    have hpos := nor.sectorSz_pos
    omega

def flashdrvErase (dev : NorDevice) (addr len : Nat) : NorDevice × Int :=
  if !dev.active then (dev, - ENXIO)
  else if (addr + len) % 2 ^ 32 > nor.slFlashSz ∧ len ≠ 2 ^ 32 - 1 then (dev, -EINVAL)
  else if len = 0 then (dev, 0)
  else
    -- the buffer is dropped, whichever sector it holds
    let dev := { dev with sectorPrevAddr := noAddr, sectorSyncAddr := noAddr }
    if len = 2 ^ 32 - 1 then
      ({ dev with chip := fun a => if a < nor.slFlashSz then NOR_ERASED_STATE else dev.chip a },
        nor.slFlashSz)
    else
      eraseLoop nor dev (getSectorAddress nor addr)
        (getSectorAddress nor ((addr + len + (nor.sectorSz - 1)) % 2 ^ 32)) 0

end Plo.Devices
