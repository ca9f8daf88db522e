import Plo.Base.Nor
import Plo.Base.Word
import Plo.Lib.Types

/-!
What the GRLIB flash drivers for SPIMCTRL and FTMCTRL have in common. A driver
buffers one sector. A write of part of a sector goes into the buffer, which is
written back before another sector is read into it; a write of a whole sector
that is not the buffered one goes to the chip. An erase drops the buffered sector
when it meets it. Addresses and sizes are 32-bit words, kept as numbers, and the
chip never fails.
-/
namespace Plo.Devices

structure SectorGeometry where
  totalSz : Nat
  sectorSz : Nat
  sectorSz_pow : ∃ k, sectorSz = 2 ^ k
  sectorSz_dvd : sectorSz ∣ totalSz
  totalSz_pos : 0 < totalSz
  totalSz_lt : totalSz < 2 ^ 32

/-- The chip and the sector buffer with its address and its flag. -/
structure SectorCache where
  chip : Nat → UInt8
  sectorBufAddr : Nat
  sectorBufDirty : Bool
  sectorBuf : Nat → UInt8

/-- `(addr_t)-1`, the address while no sector is buffered. -/
abbrev noSector : Nat := 2 ^ 32 - 1

def fdrvIsValidAddress (memsz offs len : Nat) : Bool :=
  decide (offs < memsz) && decide ((offs + len) % 2 ^ 32 ≤ memsz)

namespace SectorGeometry
variable (geo : SectorGeometry)

def getSectorAddress (addr : Nat) : Nat := addr &&& (2 ^ 32 - geo.sectorSz)

/-- The chip erases the sector the address lies in. -/
def eraseSector (chip : Nat → UInt8) (addr : Nat) : Nat → UInt8 :=
  Nor.erase chip (addr / geo.sectorSz * geo.sectorSz) geo.sectorSz

def sectorOfs (offs : Nat) : Nat := (offs - geo.getSectorAddress offs) % 2 ^ 32

/-- How many of the bytes left go into the sector of `offs`. -/
def chunkSz (offs len : Nat) : Nat := min (geo.sectorSz - geo.sectorOfs offs) len

theorem sectorSz_bits : ∃ k, k ≤ 32 ∧ geo.sectorSz = 2 ^ k := by
  obtain ⟨k, hk⟩ := geo.sectorSz_pow
  have hle := Nat.le_of_dvd geo.totalSz_pos geo.sectorSz_dvd
  have hlt := geo.totalSz_lt
  refine ⟨k, ?_, hk⟩
  rw [hk] at hle
  exact (Nat.pow_le_pow_iff_right (by decide)).mp (by omega : 2 ^ k ≤ 2 ^ 32)

theorem sectorSz_pos : 0 < geo.sectorSz := by
  obtain ⟨k, hk⟩ := geo.sectorSz_pow
  rw [hk]
  exact Nat.two_pow_pos k

theorem getSectorAddress_mod (addr : Nat) :
    geo.getSectorAddress addr = addr % 2 ^ 32 / geo.sectorSz * geo.sectorSz := by
  obtain ⟨k, hk32, hk⟩ := geo.sectorSz_bits
  rw [getSectorAddress, hk, land_highMask addr hk32]

theorem getSectorAddress_eq {addr : Nat} (h : addr < 2 ^ 32) :
    geo.getSectorAddress addr = addr / geo.sectorSz * geo.sectorSz := by
  rw [getSectorAddress_mod, Nat.mod_eq_of_lt h]

theorem getSectorAddress_of_dvd {addr : Nat} (h : addr < 2 ^ 32) (hd : geo.sectorSz ∣ addr) :
    geo.getSectorAddress addr = addr := by
  rw [geo.getSectorAddress_eq h, Nat.div_mul_cancel hd]

theorem sectorOfs_lt (offs : Nat) : geo.sectorOfs offs < geo.sectorSz := by
  have hpos := geo.sectorSz_pos
  have hdiv := Nat.div_add_mod' (offs % 2 ^ 32) geo.sectorSz
  have hmod := Nat.mod_lt (offs % 2 ^ 32) hpos
  have hword := Nat.mod_add_div offs (2 ^ 32)
  rw [sectorOfs, getSectorAddress_mod]
  omega

theorem sectorOfs_eq {offs : Nat} (h : offs < 2 ^ 32) : geo.sectorOfs offs = offs % geo.sectorSz := by
  have hdiv := Nat.div_add_mod' offs geo.sectorSz
  rw [sectorOfs, geo.getSectorAddress_eq h, Nat.mod_eq_of_lt (by omega)]
  omega

theorem chunkSz_pos (offs : Nat) {len : Nat} (h : 0 < len) : 0 < geo.chunkSz offs len := by
  have hofs := geo.sectorOfs_lt offs
  rw [chunkSz]
  omega

theorem chunkSz_spec (offs len : Nat) : geo.chunkSz offs len ≤ len ∧
    geo.sectorOfs offs + geo.chunkSz offs len ≤ geo.sectorSz := by
  have hofs := geo.sectorOfs_lt offs
  rw [chunkSz]
  omega

end SectorGeometry

section Write
variable (geo : SectorGeometry)
variable (directSectorWrite : (Nat → UInt8) → Nat → (Nat → UInt8) → (Nat → UInt8) × Int)
variable (sync : SectorCache → SectorCache × Int)

/-- The part of the loop of `flashdrv_write` for a sector that is not buffered:
a whole sector is written to the chip, for part of one the sector is read into
the buffer, which is written back first. -/
def enterSector (dev : SectorCache) (offs : Nat) (data : List UInt8) : SectorCache × Int :=
  let currAddr := geo.getSectorAddress offs
  if currAddr = dev.sectorBufAddr then (dev, EOK)
  else if geo.sectorOfs offs = 0 ∧ geo.chunkSz offs data.length = geo.sectorSz then
    match directSectorWrite dev.chip offs (fun pos => data.getD pos 0) with
    | (chip, res) => ({ dev with chip := chip }, res)
  else
    match sync dev with
    | (dev, res) =>
      if res < 0 then (dev, res)
      else
        ({ dev with
            sectorBufAddr := currAddr
            sectorBuf := patch dev.sectorBuf 0 geo.sectorSz (fun i => dev.chip (currAddr + i)) },
          EOK)

/-- The copy into the buffer, when the sector is the buffered one. -/
def fillBuffer (dev : SectorCache) (offs : Nat) (chunk : List UInt8) : SectorCache :=
  if geo.getSectorAddress offs = dev.sectorBufAddr then
    { dev with
      sectorBuf := overlay dev.sectorBuf (geo.sectorOfs offs) chunk
      sectorBufDirty := true }
  else dev

def writeSectors (dev : SectorCache) (offs : Nat) (data : List UInt8) : SectorCache × Int :=
  if _h : data = [] then (dev, EOK)
  else
    match enterSector geo directSectorWrite sync dev offs data with
    | (dev, res) =>
      if res < 0 then (dev, res)
      else
        let chunk := geo.chunkSz offs data.length
        writeSectors (fillBuffer geo dev offs (data.take chunk)) ((offs + chunk) % 2 ^ 32)
          (data.drop chunk)
  termination_by data.length
  decreasing_by
    have hlen := List.length_pos_iff.mpr _h
    have hpos := geo.chunkSz_pos offs hlen
    rw [List.length_drop]
    omega

/-- What `flashdrv_write` does with a range on the chip. -/
def writeBuffered (dev : SectorCache) (offs : Nat) (data : List UInt8) : SectorCache × Int :=
  if fdrvIsValidAddress geo.totalSz offs data.length = false then (dev, -EINVAL)
  else if data = [] then (dev, 0)
  else
    match writeSectors geo directSectorWrite sync dev offs data with
    | (dev, res) => if res < 0 then (dev, res) else (dev, data.length)

end Write

/-- The loop of `flashdrv_erase` over the sectors from `addr` to `end_`, both of
them at a border of sectors, so that the address does not wrap around. -/
def eraseSectors (geo : SectorGeometry) (dev : SectorCache) (addr end_ len : Nat) :
    SectorCache × Int :=
  if addr < end_ then
    let dev := if addr = dev.sectorBufAddr then { dev with sectorBufAddr := noSector } else dev
    eraseSectors geo { dev with chip := geo.eraseSector dev.chip addr } (addr + geo.sectorSz) end_
      (len + geo.sectorSz)
  else (dev, len)
  termination_by end_ - addr
  decreasing_by
    have hpos := geo.sectorSz_pos
    omega

/-- What `flashdrv_erase` does; for the length `(size_t)-1` it erases the chip,
whatever the address. -/
def eraseBuffered (geo : SectorGeometry) (eraseChip : SectorCache → SectorCache × Int)
    (dev : SectorCache) (addr len : Nat) : SectorCache × Int :=
  if fdrvIsValidAddress geo.totalSz addr len = false then (dev, -EINVAL)
  else if len = 0 then (dev, 0)
  else if len = 2 ^ 32 - 1 then eraseChip dev
  else
    eraseSectors geo dev (geo.getSectorAddress addr)
      (geo.getSectorAddress ((geo.getSectorAddress addr + len + geo.sectorSz - 1) % 2 ^ 32)) 0

end Plo.Devices
