import Plo.Base.Patch
import Plo.Base.Word
import Plo.Lib.Types

/-!
The SD card of Zynq-7000, read and written by bytes. Byte `a` of the card lies in block
`a / SDCARD_BLOCKLEN`. A transfer of the host controller moves whole blocks between the card
and the data buffer of the driver, and never fails but for its size. What is done with the data
buffer is recorded.
-/
namespace Plo.Devices.SdCard

def SDCARD_MAX_TRANSFER : Nat := 1024
def SDCARD_BLOCKLEN : Nat := 512

/-- `sdio_dir_t`. -/
inductive Dir
  | read | write
  deriving DecidableEq

/-- Blocks that are transferred, and bytes of the data buffer that are copied. -/
inductive Access
  | transfer (dir : Dir) (blockOffset blocks : Nat)
  | copy (ofs n : Nat)
  deriving DecidableEq

/-- The card and `sdcard_common`, and the buffer of the caller. -/
structure State where
  card : Nat → UInt8
  sizeBl : BitVec 32
  initialized : Bool
  dataBuffer : Nat → UInt8
  buff : Nat → UInt8
  accesses : List Access

def State.record (s : State) (a : Access) : State := { s with accesses := s.accesses ++ [a] }

/-- `sdcard_transferBlocks`. -/
def transferBlocks (s : State) (dir : Dir) (blockOffset blocks : Nat) : State × Int :=
  let s := s.record (.transfer dir blockOffset blocks)
  if blocks > SDCARD_MAX_TRANSFER / SDCARD_BLOCKLEN then (s, -EINVAL)
  else
    match dir with
    | .read =>
      ({ s with
          dataBuffer := patch s.dataBuffer 0 (blocks * SDCARD_BLOCKLEN)
            (fun i => s.card (blockOffset * SDCARD_BLOCKLEN + i)) }, EOK)
    | .write =>
      ({ s with
          card := patch s.card (blockOffset * SDCARD_BLOCKLEN) (blocks * SDCARD_BLOCKLEN)
            s.dataBuffer }, EOK)

/-- `hal_memcpy` from the buffer of the caller at `pos` into the data buffer. -/
def copyIn (s : State) (ofs pos n : Nat) : State :=
  let s := s.record (.copy ofs n)
  { s with dataBuffer := patch s.dataBuffer ofs n fun i => s.buff (pos + i) }

/-- `hal_memcpy` from the data buffer into the buffer of the caller at `pos`. -/
def copyOut (s : State) (ofs pos n : Nat) : State :=
  let s := s.record (.copy ofs n)
  { s with buff := patch s.buff pos n fun i => s.dataBuffer (ofs + i) }

/-- The part of `readwrite` for an offset inside a block. -/
def readwriteHead (s : State) (write : Bool) (offsBlock offsRem remSize : Nat) : State × Int :=
  let (s, ret) := transferBlocks s .read offsBlock 1
  if ret < 0 then (s, ret)
  else if write then transferBlocks (copyIn s offsRem 0 remSize) .write offsBlock 1
  else (copyOut s offsRem 0 remSize, ret)

/-- The sizes of a turn of the loop of `readwrite`, and if the block is read before part of it is
written. -/
structure Chunk where
  toRead : Nat
  toReadBlocks : Nat
  readFirst : Bool

def chunk (write : Bool) (lenRemaining : Nat) : Chunk :=
  let toRead := if SDCARD_MAX_TRANSFER < lenRemaining then SDCARD_MAX_TRANSFER else lenRemaining
  let toReadBlocks := toRead / SDCARD_BLOCKLEN
  if toRead % SDCARD_BLOCKLEN ≠ 0 then
    if write then
      -- the bytes behind the last whole block are left to another turn
      if toReadBlocks > 0 then ⟨toReadBlocks * SDCARD_BLOCKLEN, toReadBlocks, false⟩
      else ⟨toRead, 1, true⟩
    else ⟨toRead, toReadBlocks + 1, false⟩
  else ⟨toRead, toReadBlocks, false⟩

/-- What a turn of the loop can rely on. -/
structure Chunk.Right (c : Chunk) (write : Bool) (lenRemaining : Nat) : Prop where
  pos : 0 < c.toRead
  le : c.toRead ≤ lenRemaining
  fits : c.toReadBlocks * SDCARD_BLOCKLEN ≤ SDCARD_MAX_TRANSFER
  inside : c.toRead ≤ c.toReadBlocks * SDCARD_BLOCKLEN
  rounded : c.toReadBlocks * SDCARD_BLOCKLEN < c.toRead + SDCARD_BLOCKLEN
  whole : c.toRead = c.toReadBlocks * SDCARD_BLOCKLEN ∨ c.toRead = lenRemaining
  readFirst : c.readFirst = true → write = true ∧ c.toReadBlocks = 1
  written : write = true → c.readFirst = false → c.toRead = c.toReadBlocks * SDCARD_BLOCKLEN

theorem chunk_right (write : Bool) {lenRemaining : Nat} (h : lenRemaining ≠ 0) :
    (chunk write lenRemaining).Right write lenRemaining := by
  obtain ⟨n, hn, hle, hrest⟩ : ∃ n, (if SDCARD_MAX_TRANSFER < lenRemaining then SDCARD_MAX_TRANSFER
      else lenRemaining) = n ∧ 0 < n ∧ n ≤ SDCARD_MAX_TRANSFER ∧ n ≤ lenRemaining ∧
      (n = SDCARD_MAX_TRANSFER ∨ n = lenRemaining) := by
    by_cases hmax : SDCARD_MAX_TRANSFER < lenRemaining
    · exact ⟨_, if_pos hmax, by decide, Nat.le_refl _, Nat.le_of_lt hmax, Or.inl rfl⟩
    · exact ⟨_, if_neg hmax, Nat.pos_of_ne_zero h, Nat.le_of_not_lt hmax, Nat.le_refl _, Or.inr rfl⟩
  simp only [chunk, hn]
  by_cases hpart : n % SDCARD_BLOCKLEN ≠ 0
  · rw [if_pos hpart]
    cases write with
    | true =>
        by_cases hblocks : n / SDCARD_BLOCKLEN > 0
        · rw [if_pos rfl, if_pos hblocks]
          refine ⟨?_, ?_, ?_, ?_, ?_, Or.inl rfl, nofun, fun _ _ => rfl⟩
          all_goals simp only [SDCARD_BLOCKLEN, SDCARD_MAX_TRANSFER] at *
          all_goals omega
        · rw [if_pos rfl, if_neg hblocks]
          refine ⟨hle, ?_, ?_, ?_, ?_, ?_, fun _ => ⟨rfl, rfl⟩, nofun⟩
          all_goals simp only [SDCARD_BLOCKLEN, SDCARD_MAX_TRANSFER] at *
          all_goals omega
    | false =>
        rw [if_neg nofun]
        refine ⟨hle, ?_, ?_, ?_, ?_, ?_, nofun, nofun⟩
        all_goals simp only [SDCARD_BLOCKLEN, SDCARD_MAX_TRANSFER] at *
        all_goals omega
  · rw [if_neg hpart]
    refine ⟨hle, ?_, ?_, ?_, ?_, ?_, nofun, fun _ _ => ?_⟩
    all_goals simp only [SDCARD_BLOCKLEN, SDCARD_MAX_TRANSFER] at *
    all_goals omega

/-- What the loop does with a chunk. -/
def transferChunk (s : State) (write : Bool) (pos offsBlock : Nat) (c : Chunk) : State × Int :=
  let (s, ret) := if c.readFirst then transferBlocks s .read offsBlock 1 else (s, EOK)
  if ret < 0 then (s, ret)
  else
    let s := if write then copyIn s 0 pos c.toRead else s
    let (s, ret) := transferBlocks s (if write then .write else .read) offsBlock c.toReadBlocks
    if ret < 0 then (s, ret)
    else (if write then s else copyOut s 0 pos c.toRead, ret)

/-- The loop of `readwrite`. The pointer into the buffer of the caller is kept as the number of
bytes that it has been advanced. -/
def readwriteLoop (s : State) (write : Bool) (lenRemaining pos offsBlock : Nat) : State × Int :=
  if _h : lenRemaining = 0 then (s, EOK)
  else
    let c := chunk write lenRemaining
    let (s, ret) := transferChunk s write pos offsBlock c
    if ret < 0 then (s, ret)
    else
      readwriteLoop s write (lenRemaining - c.toRead) (pos + c.toRead) (offsBlock + c.toReadBlocks)
  termination_by lenRemaining
  decreasing_by
    have hpos := (chunk_right write _h).pos
    omega

/-- `readwrite`. The offset, the length and the number of blocks are words of 32 bits. -/
def readwrite (s : State) (offs len : BitVec 32) (write : Bool) : State × Int :=
  let offsBlock := offs / BitVec.ofNat 32 SDCARD_BLOCKLEN
  let offsRem := offs % BitVec.ofNat 32 SDCARD_BLOCKLEN
  let lenBlocks := (len + offsRem + BitVec.ofNat 32 SDCARD_BLOCKLEN - 1) /
    BitVec.ofNat 32 SDCARD_BLOCKLEN
  if s.initialized = false then (s, -EINVAL)
  else if offsBlock > s.sizeBl ∨ offsBlock + lenBlocks > s.sizeBl then (s, -EINVAL)
  else
    let remSize :=
      if offsRem = 0 then 0
      else if SDCARD_BLOCKLEN - offsRem.toNat > len.toNat then len.toNat
      else SDCARD_BLOCKLEN - offsRem.toNat
    let (s, ret) :=
      if offsRem = 0 then (s, EOK)
      else readwriteHead s write offsBlock.toNat offsRem.toNat remSize
    if ret < 0 then (s, ret)
    else
      let offsBlock := if offsRem = 0 then offsBlock.toNat else offsBlock.toNat + 1
      let (s, ret) := readwriteLoop s write (len.toNat - remSize) remSize offsBlock
      if ret < 0 then (s, ret) else (s, len.toInt)

/-- `sdcarddrv_read`. -/
def sdcarddrvRead (s : State) (offs len : BitVec 32) : State × Int := readwrite s offs len false

/-- `sdcarddrv_write`. -/
def sdcarddrvWrite (s : State) (offs len : BitVec 32) : State × Int := readwrite s offs len true

end Plo.Devices.SdCard
