import Plo.Base.Nor
import Plo.Base.Window
import Plo.Base.Word
import Plo.Lib.Types

/-!
The data interface of the NAND flash of the i.MX 6ULL. One eraseblock is cached for
writing and one page for reading. An offset is turned into the number of an
eraseblock at the start of each call; bad blocks met from there on are skipped.
The flash never fails, and its bad blocks stay the same.
-/
namespace Plo.Devices.Nand

/-- What the interface uses of `nanddrv_info_t`, with the blocks marked bad. -/
structure NandInfo where
  size : Nat
  writesz : Nat
  erasesz : Nat
  bad : Nat → Bool
  writesz_pos : 0 < writesz
  writesz_dvd : writesz ∣ erasesz
  erasesz_pos : 0 < erasesz
  erasesz_dvd : erasesz ∣ size
  size_lt : size < 2 ^ 32

namespace NandInfo
variable (nand : NandInfo)

def nblocks : Nat := nand.size / nand.erasesz

def npages : Nat := nand.erasesz / nand.writesz

end NandInfo

/-- The flash, the caches and `data_common`. There is one device, so that `rnand`
and `wnand` say whether they are set to it. -/
structure NandDev where
  chip : Nat → UInt8
  page : Nat → UInt8
  block : Nat → UInt8
  rnand : Bool
  wnand : Bool
  rpage : Nat
  wblock : Nat

def dataInit (chip page block : Nat → UInt8) : NandDev where
  chip := chip
  page := page
  block := block
  rnand := false
  wnand := false
  rpage := 0
  wblock := 0

variable (nand : NandInfo)

/-- The first good block from `block` on, or the number of blocks; `n` blocks are
left. -/
def skipBad : Nat → Nat → Nat
  | 0, block => block
  | n + 1, block => if nand.bad block then skipBad n (block + 1) else block

/-- Erases the block and writes its pages from the cache. -/
def writeBlock (dev : NandDev) (block : Nat) : NandDev :=
  { dev with
    chip := Nor.programPages nand.writesz (block * nand.erasesz) dev.block nand.npages
      (Nor.erase dev.chip (block * nand.erasesz) nand.erasesz) }

def dataDoSync (dev : NandDev) : NandDev × Int :=
  let dev := { dev with rnand := false }
  if dev.wnand then
    let dev := { dev with wblock := skipBad nand (nand.nblocks - dev.wblock) dev.wblock }
    if nand.nblocks ≤ dev.wblock then (dev, - ENOSPC)
    else ({ writeBlock nand dev dev.wblock with wnand := false }, EOK)
  else (dev, EOK)

/-- Reads `n` pages of the block, from page `i` on, to their places in the cache. -/
def loadPages (dev : NandDev) (block : Nat) : Nat → Nat → NandDev
  | _, 0 => dev
  | i, n + 1 =>
    loadPages { dev with
      block := patch dev.block (i * nand.writesz) nand.writesz
        fun k => dev.chip ((block * nand.npages + i) * nand.writesz + k) } block (i + 1) n

/-- The number of pages `i` with `i * writesz < boffs`. -/
def frontPages (boffs : Nat) : Nat := (boffs + nand.writesz - 1) / nand.writesz

/-- Reads the block in front of and behind the area of `len` bytes to be written,
and makes it the cached one. -/
def loadBlock (dev : NandDev) (block boffs len : Nat) : NandDev :=
  let dev := loadPages nand dev block 0 (frontPages nand boffs)
  let i := max (frontPages nand boffs) ((boffs + len) / nand.writesz)
  let dev := loadPages nand dev block i (nand.npages - i)
  { dev with
    wnand := true
    wblock := block }

/-- How a round of `data_write` goes on. -/
inductive Cached
  | ready
  /-- The cached data was written at this block. -/
  | taken
  | failed (err : Int)

/-- Makes the block the cached one. -/
def cacheBlock (dev : NandDev) (block boffs len : Nat) : NandDev × Cached :=
  if dev.wnand = true ∧ block = dev.wblock then (dev, .ready)
  else if dev.wnand then
    let r := dataDoSync nand dev
    if r.2 < 0 then (r.1, .failed r.2)
    else if dev.wblock < block ∧ block ≤ r.1.wblock then (r.1, .taken)
    else (loadBlock nand r.1 block boffs len, .ready)
  else (loadBlock nand dev block boffs len, .ready)

/-- The loop of `data_write`, with the data left. -/
def writeLoop : Nat → NandDev → Nat → Nat → List UInt8 → Nat → NandDev × Int
  | 0, dev, _, _, _, ret => (dev, ret)
  | fuel + 1, dev, block, boffs, data, ret =>
    if block < nand.nblocks ∧ data ≠ [] then
      if nand.bad block then writeLoop fuel dev (block + 1) boffs data ret
      else
        let r := cacheBlock nand dev block boffs data.length
        match r.2 with
        | .failed err => (r.1, err)
        | .taken => writeLoop fuel r.1 (r.1.wblock + 1) boffs data ret
        | .ready =>
          let size := min data.length (nand.erasesz - boffs)
          writeLoop fuel { r.1 with block := overlay r.1.block boffs (data.take size) } (block + 1) 0
            (data.drop size) (ret + size)
    else (dev, ret)

def dataWrite (dev : NandDev) (offs : Nat) (data : List UInt8) : NandDev × Int :=
  if nand.size ≤ offs then (dev, - EINVAL)
  else
    let data := data.take (nand.size - offs)
    if data = [] then (dev, 0)
    else
      writeLoop nand nand.nblocks { dev with rnand := false } (offs / nand.erasesz)
        (offs % nand.erasesz) data 0

/-- Makes the page the cached one. -/
def cachePage (dev : NandDev) (page : Nat) : NandDev :=
  if dev.rnand = true ∧ page = dev.rpage then dev
  else
    { dev with
      page := patch dev.page 0 nand.writesz fun k => dev.chip (page * nand.writesz + k)
      rnand := true
      rpage := page }

/-- The loop over the pages of a block: `n` pages are left. -/
def readPages : Nat → NandDev → Nat → Nat → Nat → NandDev × List UInt8
  | 0, dev, _, _, _ => (dev, [])
  | n + 1, dev, page, poffs, len =>
    if 0 < len then
      let dev := cachePage nand dev page
      let size := min len (nand.writesz - poffs)
      let r := readPages n dev (page + 1) 0 (len - size)
      (r.1, slice dev.page poffs size ++ r.2)
    else (dev, [])

/-- The loop of `data_read`, with the number of bytes left. -/
def readLoop : Nat → NandDev → Nat → Nat → Nat → NandDev × List UInt8
  | 0, dev, _, _, _ => (dev, [])
  | fuel + 1, dev, block, boffs, len =>
    if block < nand.nblocks ∧ 0 < len then
      if nand.bad block then readLoop fuel dev (block + 1) boffs len
      else if dev.wnand = true ∧ block = dev.wblock then
        let size := min len (nand.erasesz - boffs)
        let r := readLoop fuel dev (block + 1) 0 (len - size)
        (r.1, slice dev.block boffs size ++ r.2)
      else
        let first := boffs / nand.writesz
        let p := readPages nand (nand.npages - first) dev (block * nand.npages + first)
          (boffs % nand.writesz) len
        let r := readLoop fuel p.1 (block + 1) 0 (len - p.2.length)
        (r.1, p.2 ++ r.2)
    else (dev, [])

/-- The device, the data read and the result. -/
def dataRead (dev : NandDev) (offs len : Nat) : NandDev × List UInt8 × Int :=
  if nand.size ≤ offs then (dev, [], - EINVAL)
  else
    let r := readLoop nand nand.nblocks dev (offs / nand.erasesz) (offs % nand.erasesz)
      (min len (nand.size - offs))
    (r.1, r.2, r.2.length)

/-- Writes the data in calls of the given sizes; the offset and the data go on by
what each call wrote. -/
def writeChunks (dev : NandDev) (offs : Nat) (data : List UInt8) : List Nat → NandDev × Int
  | [] => (dev, 0)
  | n :: sizes =>
    let r := dataWrite nand dev offs (data.take n)
    if r.2 < 0 then r
    else writeChunks r.1 (offs + r.2.toNat) (data.drop r.2.toNat) sizes

/-- Reads in calls of the given sizes; the offset goes on by what each call read. -/
def readChunks (dev : NandDev) (offs : Nat) : List Nat → NandDev × List UInt8
  | [] => (dev, [])
  | n :: sizes =>
    let r := dataRead nand dev offs n
    if r.2.2 < 0 then (r.1, [])
    else
      let r' := readChunks r.1 (offs + r.2.1.length) sizes
      (r'.1, r.2.1 ++ r'.2)

end Plo.Devices.Nand
