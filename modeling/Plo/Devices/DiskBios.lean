import Mathlib.Logic.Function.Basic
import Plo.Base.Patch
import Plo.Base.Window
import Plo.Base.Word
import Plo.Lib.Types

/-!
The disk driver on top of the BIOS calls. A disk is a row of blocks, which the BIOS
addresses by cylinder, head and sector. Reads go through one cached segment of a
track, which is kept until another segment is read. Writes collect in a window of
another segment; the window is written to the disk when a block does not fit to
it. The disks never fail.
-/
namespace Plo.Devices.DiskBios

/-- Disk block size. -/
def SIZE_BLOCK : Nat := 0x200

def SIZE_RCACHE : Nat := 0x4000

def SIZE_WCACHE : Nat := 0x4000

def BLOCKS_RCACHE : Nat := SIZE_RCACHE / SIZE_BLOCK

def BLOCKS_WCACHE : Nat := SIZE_WCACHE / SIZE_BLOCK

abbrev DISKBIOS_FLOPPY_CNT : Nat := 1

abbrev DISKBIOS_HD_CNT : Nat := 4

abbrev DISKBIOS_MAX_CNT : Nat := DISKBIOS_FLOPPY_CNT + DISKBIOS_HD_CNT

/-- What the driver uses of the geometry packet. -/
structure Geo where
  heads : Nat
  secs : Nat
  heads_pos : 0 < heads
  secs_pos : 0 < secs

/-- A geometry as the BIOS reports it for a large disk. -/
def largeDisk : Geo where
  heads := 16
  secs := 63
  heads_pos := by decide
  secs_pos := by decide

/-- A block, and where on which disk it goes. -/
structure BlockWrite where
  dn : Nat
  c : Nat
  h : Nat
  s : Nat
  data : List UInt8
  deriving DecidableEq

/-- `diskbios_common` with the caches, the content of the disk of each number, and
the blocks transferred to the disks up to now. -/
structure DiskCommon where
  disk : Nat → Nat → UInt8
  transfers : List BlockWrite
  rcache : Nat → UInt8
  wcache : Nat → UInt8
  lrdn : Nat
  lrc : Nat
  lrh : Nat
  lrp : Nat
  lwdn : Nat
  lwc : Nat
  lwh : Nat
  lwp : Nat
  lwb : Nat
  lwe : Nat

/-- `(unsigned char)-1`, the disk number of a cache not used. -/
abbrev noDisk : Nat := 0xff

/-- The state that `diskbios_register` leaves. -/
def diskbiosRegister (disk : Nat → Nat → UInt8) (rcache wcache : Nat → UInt8) : DiskCommon where
  disk := disk
  transfers := []
  rcache := rcache
  wcache := wcache
  lrdn := noDisk
  lrc := 0
  lrh := 0
  lrp := 0
  lwdn := noDisk
  lwc := 0
  lwh := 0
  lwp := 0
  lwb := 0
  lwe := 0

/-- The disk number that `diskbios_init` gives a minor. -/
def diskNumber (minor : Nat) : Nat :=
  if DISKBIOS_FLOPPY_CNT ≤ minor then minor + (0x80 - DISKBIOS_FLOPPY_CNT) else minor

/-- The number of the disk. An instance is never refused for its number: as an
`unsigned char` it does not equal `-1`. -/
def diskbiosGet (minor : Nat) : Option Nat :=
  if DISKBIOS_MAX_CNT ≤ minor then none else some (diskNumber minor)

namespace Geo
variable (g : Geo)

def cyl (sb : Nat) : Nat := sb / g.secs / g.heads

def head (sb : Nat) : Nat := sb / g.secs % g.heads

def sec (sb : Nat) : Nat := sb % g.secs

/-- The block with an address; sectors count from one. -/
def block (c h s : Nat) : Nat := (c * g.heads + h) * g.secs + (s - 1)

end Geo

/-- The first sector of a segment of `blocks` sectors. -/
def segment (blocks s : Nat) : Nat := s / blocks * blocks

section Driver
variable (geo : Nat → Geo)

/-- `diskbios_access` with `DISK_READ`. -/
def accessRead (dev : DiskCommon) (dn c h s n : Nat) : DiskCommon :=
  { dev with
    rcache := patch dev.rcache 0 (n * SIZE_BLOCK)
      fun i => dev.disk dn ((geo dn).block c h s * SIZE_BLOCK + i) }

/-- `diskbios_access` with `DISK_WRITE`. -/
def accessWrite (dev : DiskCommon) (dn c h s n : Nat) (buff : Nat → UInt8) : DiskCommon :=
  { dev with
    disk := Function.update dev.disk dn
      (patch (dev.disk dn) ((geo dn).block c h s * SIZE_BLOCK) (n * SIZE_BLOCK) buff)
    transfers := dev.transfers ++ (List.range n).map fun i =>
      ⟨dn, c, h, s + i, slice buff (i * SIZE_BLOCK) SIZE_BLOCK⟩ }

/-- The read segment that a block belongs to is not the cached one. -/
def missesRcache (dev : DiskCommon) (dn sb : Nat) : Prop :=
  dn ≠ dev.lrdn ∨ (geo dn).cyl sb ≠ dev.lrc ∨ (geo dn).head sb ≠ dev.lrh ∨
    segment BLOCKS_RCACHE ((geo dn).sec sb) ≠ dev.lrp

instance (dev : DiskCommon) (dn sb : Nat) : Decidable (missesRcache geo dev dn sb) :=
  inferInstanceAs (Decidable (_ ∨ _ ∨ _ ∨ _))

/-- Reads the track segment of a block to the cache. -/
def loadSegment (dev : DiskCommon) (dn sb : Nat) : DiskCommon :=
  let p := segment BLOCKS_RCACHE ((geo dn).sec sb)
  { accessRead geo dev dn ((geo dn).cyl sb) ((geo dn).head sb) (p + 1)
      (min BLOCKS_RCACHE ((geo dn).secs - p)) with
    lrdn := dn
    lrc := (geo dn).cyl sb
    lrh := (geo dn).head sb
    lrp := p }

def cacheSegment (dev : DiskCommon) (dn sb : Nat) : DiskCommon :=
  if missesRcache geo dev dn sb then loadSegment geo dev dn sb else dev

/-- The loop of `diskbios_read`, with the number of blocks and of bytes to go. -/
def readLoop (dn : Nat) : Nat → DiskCommon → Nat → Nat → Nat → DiskCommon × List UInt8
  | 0, dev, _, _, _ => (dev, [])
  | k + 1, dev, sb, offs, len =>
    let dev := cacheSegment geo dev dn sb
    let size := if k = 0 then len else SIZE_BLOCK - offs % SIZE_BLOCK
    let r := readLoop dn k dev (sb + 1) ((offs + size) % 2 ^ 32) (len - size)
    (r.1, slice dev.rcache
      ((geo dn).sec sb % BLOCKS_RCACHE * SIZE_BLOCK + offs % SIZE_BLOCK) size ++ r.2)

def startBlock (offs : Nat) : Nat := offs / SIZE_BLOCK

def endBlock (offs len : Nat) : Nat := (offs + len - 1) % 2 ^ 32 / SIZE_BLOCK

/-- The device, the data read and the result. -/
def diskbiosRead (dev : DiskCommon) (minor offs len : Nat) : DiskCommon × List UInt8 × Int :=
  match diskbiosGet minor with
  | none => (dev, [], - EINVAL)
  | some dn =>
    if len = 0 then (dev, [], 0)
    else
      let r := readLoop geo dn (endBlock offs len + 1 - startBlock offs) dev (startBlock offs) offs len
      (r.1, r.2, r.2.length)

/-- Writes the window to the disk with the number and marks the cache empty. -/
def flush (dev : DiskCommon) (dn : Nat) : DiskCommon :=
  { accessWrite geo dev dn dev.lwc dev.lwh (dev.lwp + dev.lwb + 1) (dev.lwe - dev.lwb)
      (fun i => dev.wcache (dev.lwb * SIZE_BLOCK + i)) with
    lwb := 0
    lwe := 0 }

/-- There is a window, and the block neither falls into it nor continues it. -/
def missesWcache (dev : DiskCommon) (dn sb : Nat) : Prop :=
  dev.lwb ≠ dev.lwe ∧
    (dn ≠ dev.lwdn ∨ (geo dn).cyl sb ≠ dev.lwc ∨ (geo dn).head sb ≠ dev.lwh ∨
      segment BLOCKS_WCACHE ((geo dn).sec sb) ≠ dev.lwp ∨
      (geo dn).sec sb % BLOCKS_WCACHE + 1 < dev.lwb ∨ dev.lwe < (geo dn).sec sb % BLOCKS_WCACHE)

instance (dev : DiskCommon) (dn sb : Nat) : Decidable (missesWcache geo dev dn sb) :=
  inferInstanceAs (Decidable (_ ∧ (_ ∨ _ ∨ _ ∨ _ ∨ _ ∨ _)))

/-- Puts the block into the window. -/
def extendWindow (dev : DiskCommon) (dn sb : Nat) : DiskCommon :=
  let b := (geo dn).sec sb % BLOCKS_WCACHE
  { dev with
    lwdn := dn
    lwc := (geo dn).cyl sb
    lwh := (geo dn).head sb
    lwp := segment BLOCKS_WCACHE ((geo dn).sec sb)
    lwb := if dev.lwb = dev.lwe then b else if b + 1 = dev.lwb then dev.lwb - 1 else dev.lwb
    lwe :=
      if dev.lwb = dev.lwe then b + 1
      else if b + 1 = dev.lwb then dev.lwe
      else if b = dev.lwe then dev.lwe + 1 else dev.lwe }

/-- One round of the loop of `diskbios_write`: bytes for a block, from `ofs` on. -/
def writeBlock (dev : DiskCommon) (dn sb ofs : Nat) (chunk : List UInt8) : DiskCommon :=
  let dev := if missesWcache geo dev dn sb then flush geo dev dn else dev
  extendWindow geo
    { dev with wcache :=
        overlay dev.wcache ((geo dn).sec sb % BLOCKS_WCACHE * SIZE_BLOCK + ofs) chunk } dn sb

/-- The loop of `diskbios_write`, with the number of blocks to go. -/
def writeLoop (dn : Nat) : Nat → DiskCommon → Nat → Nat → List UInt8 → Nat → DiskCommon × Nat
  | 0, dev, _, _, _, n => (dev, n)
  | k + 1, dev, sb, offs, data, n =>
    let size := if k = 0 then data.length else SIZE_BLOCK - offs % SIZE_BLOCK
    writeLoop dn k (writeBlock geo dev dn sb (offs % SIZE_BLOCK) (data.take size)) (sb + 1)
      ((offs + size) % 2 ^ 32) (data.drop size) (n + size)

def diskbiosWrite (dev : DiskCommon) (minor offs : Nat) (data : List UInt8) : DiskCommon × Int :=
  match diskbiosGet minor with
  | none => (dev, - EINVAL)
  | some dn =>
    if data.length = 0 then (dev, 0)
    else
      let r := writeLoop geo dn (endBlock offs data.length + 1 - startBlock offs) dev
        (startBlock offs) offs data 0
      (r.1, r.2)

def diskbiosSync (dev : DiskCommon) (minor : Nat) : DiskCommon × Int :=
  match diskbiosGet minor with
  | none => (dev, - EINVAL)
  | some dn =>
    if dev.lwb ≠ dev.lwe ∧ dn = dev.lwdn then (flush geo dev dn, EOK) else (dev, EOK)

end Driver

end Plo.Devices.DiskBios
