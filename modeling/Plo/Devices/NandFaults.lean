import Mathlib.Logic.Function.Basic
import Plo.Devices.NandData

/-!
The data interface of the NAND flash of the i.MX 6ULL over a flash that fails. The
bad blocks are those marked in the flash itself, and `data_write` and `data_sync`
mark a block on which an operation failed. Which operations fail is given by their
numbers, counted from the start.
-/
namespace Plo.Devices.Nand

/-- What fails, and what a failed operation leaves in a piece of memory and in the
marker of a block. -/
structure Faults where
  isbadFails : Nat → Bool
  readFails : Nat → Bool
  eraseFails : Nat → Bool
  writeFails : Nat → Bool
  markFails : Nat → Bool
  junk : Nat → Nat → UInt8
  marker : Nat → Bool

namespace Faulty

/-- What one call does that matters to the blocks marked. -/
inductive Event
  /-- A read, an erase or a write failed in the block. -/
  | failed (block : Nat)
  | markbad (block : Nat)
deriving DecidableEq

/-- The blocks marked bad in the flash, the number of operations so far, and the
events of the last call, the newest first. -/
structure FaultyDev extends NandDev where
  bad : Nat → Bool
  time : Nat
  log : List Event

variable (faults : Faults) (nand : NandInfo)

/-- `nanddrv_isbad`: a marker that cannot be read counts as a bad block. -/
def isbad (dev : FaultyDev) (block : Nat) : FaultyDev × Bool :=
  ({ dev with time := dev.time + 1 }, dev.bad block || faults.isbadFails dev.time)

/-- `nanddrv_markbad`, and whether it failed. -/
def markbad (dev : FaultyDev) (block : Nat) : FaultyDev × Bool :=
  ({ dev with
      bad := Function.update dev.bad block
        (!faults.markFails dev.time || dev.bad block || faults.marker dev.time)
      time := dev.time + 1
      log := .markbad block :: dev.log }, faults.markFails dev.time)

/-- `nanddrv_erase`, and whether it failed. -/
def erase (dev : FaultyDev) (block : Nat) : FaultyDev × Bool :=
  if faults.eraseFails dev.time then
    ({ dev with
        chip := patch dev.chip (block * nand.erasesz) nand.erasesz (faults.junk dev.time)
        bad := Function.update dev.bad block (dev.bad block || faults.marker dev.time)
        time := dev.time + 1
        log := .failed block :: dev.log }, true)
  else
    ({ dev with
        chip := Nor.erase dev.chip (block * nand.erasesz) nand.erasesz
        time := dev.time + 1 }, false)

/-- `nanddrv_write` of page `i` of the block from the block cache, and whether it
failed. -/
def write (dev : FaultyDev) (block i : Nat) : FaultyDev × Bool :=
  if faults.writeFails dev.time then
    ({ dev with
        chip := patch dev.chip ((block * nand.npages + i) * nand.writesz) nand.writesz
          (faults.junk dev.time)
        bad := Function.update dev.bad block (dev.bad block || faults.marker dev.time)
        time := dev.time + 1
        log := .failed block :: dev.log }, true)
  else
    ({ dev with
        chip := Nor.program dev.chip ((block * nand.npages + i) * nand.writesz) nand.writesz
          fun k => dev.block (i * nand.writesz + k)
        time := dev.time + 1 }, false)

/-- `nanddrv_read` of page `i` of the block to its place in the block cache, and
whether it failed. -/
def read (dev : FaultyDev) (block i : Nat) : FaultyDev × Bool :=
  if faults.readFails dev.time then
    ({ dev with
        block := patch dev.block (i * nand.writesz) nand.writesz (faults.junk dev.time)
        time := dev.time + 1
        log := .failed block :: dev.log }, true)
  else
    ({ dev with
        block := patch dev.block (i * nand.writesz) nand.writesz
          fun k => dev.chip ((block * nand.npages + i) * nand.writesz + k)
        time := dev.time + 1 }, false)

/-- Writes `n` pages of the block, from page `i` on, up to the first that fails. -/
def writePages (dev : FaultyDev) (block : Nat) : Nat → Nat → FaultyDev × Bool
  | _, 0 => (dev, false)
  | i, n + 1 =>
    let r := write faults nand dev block i
    if r.2 then r else writePages r.1 block (i + 1) n

/-- Erases the block and writes its pages from the cache. -/
def writeBlock (dev : FaultyDev) (block : Nat) : FaultyDev × Bool :=
  let r := erase faults nand dev block
  if r.2 then r else writePages faults nand r.1 block 0 nand.npages

def nextBlock (dev : FaultyDev) : FaultyDev := { dev with wblock := dev.wblock + 1 }

/-- Marks the block cache empty. -/
def emptyCache (dev : FaultyDev) : FaultyDev := { dev with wnand := false }

def invalidatePage (dev : FaultyDev) : FaultyDev := { dev with rnand := false }

/-- Writes the cached block at the first block from `wblock` on that takes it;
`n` blocks are left. -/
def syncLoop : Nat → FaultyDev → FaultyDev × Int
  | 0, dev => (dev, - ENOSPC)
  | n + 1, dev =>
    let q := isbad faults dev dev.wblock
    if q.2 then syncLoop n (nextBlock q.1)
    else
      let r := writeBlock faults nand q.1 q.1.wblock
      if r.2 then
        let m := markbad faults r.1 r.1.wblock
        if m.2 then (m.1, - EIO)
        else syncLoop n (nextBlock m.1)
      else (emptyCache r.1, EOK)

def dataDoSync (dev : FaultyDev) : FaultyDev × Int :=
  let dev := invalidatePage dev
  if dev.wnand then syncLoop faults nand (nand.nblocks - dev.wblock) dev else (dev, EOK)

/-- A new call starts. -/
def clearLog (dev : FaultyDev) : FaultyDev := { dev with log := [] }

def dataSync (dev : FaultyDev) : FaultyDev × Int := dataDoSync faults nand (clearLog dev)

/-- Reads `n` pages of the block, from page `i` on, up to the first that fails. -/
def loadPages (dev : FaultyDev) (block : Nat) : Nat → Nat → FaultyDev × Bool
  | _, 0 => (dev, false)
  | i, n + 1 =>
    let r := read faults nand dev block i
    if r.2 then r else loadPages r.1 block (i + 1) n

/-- How a round of `data_write` goes on. -/
inductive Cached
  | ready (err : Bool)
  /-- The cached data was written at this block. -/
  | taken
  /-- The data of this block is lost. -/
  | lost
  | failed (err : Int)

/-- Reads the block in front of and behind the area of `len` bytes to be written,
with the value `err` has before. -/
def readBlock (dev : FaultyDev) (err : Bool) (block boffs len : Nat) : FaultyDev × Bool :=
  let front := loadPages faults nand dev block 0 (frontPages nand boffs)
  -- with no page in front of the area nothing is assigned to `err`
  let err := if frontPages nand boffs = 0 then err else front.2
  if err then (front.1, true)
  else
    let i := max (frontPages nand boffs) ((boffs + len) / nand.writesz)
    loadPages faults nand front.1 block i (nand.npages - i)

def setCached (dev : FaultyDev) (block : Nat) : FaultyDev :=
  { dev with
    wnand := true
    wblock := block }

/-- Marks a block that cannot be cached. -/
def loseBlock (dev : FaultyDev) (block : Nat) : FaultyDev × Cached :=
  let m := markbad faults dev block
  if m.2 then (m.1, .failed (- EIO)) else (m.1, .lost)

/-- Makes the block the cached one, or marks it. -/
def loadBlock (dev : FaultyDev) (err : Bool) (block boffs len : Nat) : FaultyDev × Cached :=
  let r := readBlock faults nand dev err block boffs len
  if r.2 then loseBlock faults r.1 block else (setCached r.1 block, .ready false)

def cacheBlock (dev : FaultyDev) (err : Bool) (block boffs len : Nat) : FaultyDev × Cached :=
  if dev.wnand = true ∧ block = dev.wblock then (dev, .ready err)
  else if dev.wnand then
    let r := dataDoSync faults nand dev
    if r.2 < 0 then (r.1, .failed r.2)
    else if dev.wblock < block ∧ block ≤ r.1.wblock then (r.1, .taken)
    else loadBlock faults nand r.1 false block boffs len
  else loadBlock faults nand dev err block boffs len

/-- A round of the loop of `data_write`: the device, the loop's variables and the
data left. -/
structure Round where
  dev : FaultyDev
  err : Bool
  block : Nat
  boffs : Nat
  data : List UInt8
  ret : Nat

inductive Next
  | round (r : Round)
  | done (dev : FaultyDev) (ret : Int)

def copyData (dev : FaultyDev) (boffs : Nat) (data : List UInt8) : FaultyDev :=
  { dev with block := overlay dev.block boffs data }

def writeRound (r : Round) : Next :=
  if r.block < nand.nblocks ∧ r.data ≠ [] then
    let q := isbad faults r.dev r.block
    if q.2 then
      .round { r with
        dev := q.1
        block := r.block + 1 }
    else
      let c := cacheBlock faults nand q.1 r.err r.block r.boffs r.data.length
      match c.2 with
      | .failed err => .done c.1 err
      | .taken =>
        .round { r with
          dev := c.1
          err := false
          block := c.1.wblock + 1 }
      | .lost =>
        .round { r with
          dev := c.1
          err := true
          block := r.block + 1 }
      | .ready err =>
        let size := min r.data.length (nand.erasesz - r.boffs)
        .round
          { dev := copyData c.1 r.boffs (r.data.take size)
            err := err
            block := r.block + 1
            boffs := 0
            data := r.data.drop size
            ret := r.ret + size }
  else .done r.dev r.ret

def writeLoop : Nat → Round → FaultyDev × Int
  | 0, r => (r.dev, r.ret)
  | fuel + 1, r =>
    match writeRound faults nand r with
    | .round r => writeLoop fuel r
    | .done dev ret => (dev, ret)

/-- The first round of a call with data to write. -/
def firstRound (dev : FaultyDev) (offs : Nat) (data : List UInt8) : Round where
  dev := invalidatePage (clearLog dev)
  err := false
  block := offs / nand.erasesz
  boffs := offs % nand.erasesz
  data := data
  ret := 0

def dataWrite (dev : FaultyDev) (offs : Nat) (data : List UInt8) : FaultyDev × Int :=
  if nand.size ≤ offs then (clearLog dev, - EINVAL)
  else
    let data := data.take (nand.size - offs)
    if data = [] then (clearLog dev, 0)
    else writeLoop faults nand nand.nblocks (firstRound nand dev offs data)

/-- Makes the page the cached one. -/
def cachePage (dev : FaultyDev) (block page : Nat) : FaultyDev × Bool :=
  if dev.rnand = true ∧ page = dev.rpage then (dev, false)
  else if faults.readFails dev.time then
    ({ dev with
        page := patch dev.page 0 nand.writesz (faults.junk dev.time)
        rnand := false
        time := dev.time + 1
        log := .failed block :: dev.log }, true)
  else
    ({ dev with
        page := patch dev.page 0 nand.writesz fun k => dev.chip (page * nand.writesz + k)
        rnand := true
        rpage := page
        time := dev.time + 1 }, false)

/-- The loop over the pages of a block: `n` pages are left. -/
def readPages (block : Nat) :
    Nat → FaultyDev → Nat → Nat → Nat → FaultyDev × List UInt8 × Bool
  | 0, dev, _, _, _ => (dev, [], false)
  | n + 1, dev, page, poffs, len =>
    if 0 < len then
      let c := cachePage faults nand dev block page
      if c.2 then ((markbad faults c.1 block).1, [], true)
      else
        let size := min len (nand.writesz - poffs)
        let r := readPages block n c.1 (page + 1) 0 (len - size)
        (r.1, slice c.1.page poffs size ++ r.2.1, r.2.2)
    else (dev, [], false)

/-- The loop of `data_read`, with the number of bytes left. -/
def readLoop : Nat → FaultyDev → Nat → Nat → Nat → FaultyDev × List UInt8 × Bool
  | 0, dev, _, _, _ => (dev, [], false)
  | fuel + 1, dev, block, boffs, len =>
    if block < nand.nblocks ∧ 0 < len then
      let q := isbad faults dev block
      if q.2 then readLoop fuel q.1 (block + 1) boffs len
      else if q.1.wnand = true ∧ block = q.1.wblock then
        let size := min len (nand.erasesz - boffs)
        let r := readLoop fuel q.1 (block + 1) 0 (len - size)
        (r.1, slice q.1.block boffs size ++ r.2.1, r.2.2)
      else
        let first := boffs / nand.writesz
        let p := readPages faults nand block (nand.npages - first) q.1 (block * nand.npages + first)
          (boffs % nand.writesz) len
        if p.2.2 then p
        else
          let r := readLoop fuel p.1 (block + 1) 0 (len - p.2.1.length)
          (r.1, p.2.1 ++ r.2.1, r.2.2)
    else (dev, [], false)

/-- The device, the data read and the result. -/
def dataRead (dev : FaultyDev) (offs len : Nat) : FaultyDev × List UInt8 × Int :=
  let dev := clearLog dev
  if nand.size ≤ offs then (dev, [], - EINVAL)
  else
    let r := readLoop faults nand nand.nblocks dev (offs / nand.erasesz) (offs % nand.erasesz)
      (min len (nand.size - offs))
    (r.1, r.2.1, if r.2.2 then - EIO else r.2.1.length)

end Faulty

end Plo.Devices.Nand
