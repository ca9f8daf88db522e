import Mathlib.Data.List.Pairwise
import Plo.Lib.Types

/-!
The parameters of a flash read from its own tables. The basic parameter table says in its
header how many dwords it has; those that the parser reads of it are recorded by their
index.
-/
namespace Plo.Devices.Sfdp

/-- `enum operation_io_type`. -/
inductive IoType
  | io111 | io112 | io122 | io114 | io144 | io222 | io444
  deriving DecidableEq, Repr

def IoType.value : IoType → Nat
  | .io111 => 0
  | .io112 => 1
  | .io122 => 2
  | .io114 => 3
  | .io144 => 4
  | .io222 => 5
  | .io444 => 6

structure OperationLookup where
  checkIdx : Nat
  checkShift : Nat
  opcodeIdx : Nat
  opcodeShift : Nat
  dummyIdx : Nat
  dummyShift : Nat
  modeCycIdx : Nat
  modeCycShift : Nat

/-- `sfdpOperationLookup`. -/
def operationLookup : IoType → OperationLookup
  | .io111 => ⟨0, 0, 0, 0, 0, 0, 0, 0⟩
  | .io112 => ⟨0, 16, 3, 8, 3, 0, 3, 5⟩
  | .io122 => ⟨0, 20, 3, 24, 3, 16, 3, 21⟩
  | .io114 => ⟨0, 22, 2, 24, 2, 16, 2, 21⟩
  | .io144 => ⟨0, 21, 2, 8, 2, 0, 2, 5⟩
  | .io222 => ⟨4, 0, 5, 24, 5, 16, 5, 21⟩
  | .io444 => ⟨4, 4, 6, 24, 6, 16, 6, 21⟩

structure EraseLookup where
  sizeIdx : Nat
  sizeShift : Nat
  opcodeShift : Nat
  timeShift : Nat
  deriving DecidableEq

/-- `sfdpEraseLookup`. -/
def eraseLookup : List EraseLookup :=
  [⟨7, 0, 8, 4⟩, ⟨7, 16, 24, 11⟩, ⟨8, 0, 8, 18⟩, ⟨8, 16, 24, 25⟩]

/-- `flash_opParameters_t`. -/
structure OpParameters where
  readIoType : IoType
  readOpcode : BitVec 8
  readModeCyc : BitVec 8
  readDummy : BitVec 8
  writeIoType : IoType
  writeOpcode : BitVec 8
  writeDummy : BitVec 8
  eraseOpcode : BitVec 8
  addrMode : BitVec 8
  logChipSize : BitVec 8
  logEraseSize : BitVec 8
  logPageSize : BitVec 8
  eraseBlockTimeout : BitVec 32
  eraseChipTimeout : BitVec 32

def ADDRMODE_3B : BitVec 8 := 0

/-- `flashdrv_fillDefaultParams`. -/
def fillDefaultParams : OpParameters :=
  { readIoType := .io111
    readOpcode := 0x03
    readDummy := 0
    readModeCyc := 0
    writeIoType := .io111
    writeOpcode := 0x02
    writeDummy := 0
    addrMode := ADDRMODE_3B
    logChipSize := 24
    eraseOpcode := 0xd8
    logEraseSize := 16
    logPageSize := 8
    eraseBlockTimeout := 1000
    eraseChipTimeout := 60000 }

/-- `flashdrv_calcEraseTime`. -/
def calcEraseTime (timeValue : BitVec 8) (isChipErase : Bool) : BitVec 32 :=
  let units : List (BitVec 32) := if isChipErase then [16, 256, 4000, 64000] else [1, 16, 128, 1000]
  units.getD ((timeValue >>> 5) &&& 0x3).toNat 0 * (timeValue &&& 0x1f).setWidth 32

/-- A field of `mask` bits of a dword, as a byte. -/
def field (dword : BitVec 32) (shift : Nat) (mask : BitVec 32) : BitVec 8 :=
  ((dword >>> shift) &&& mask).setWidth 8

/-- What the parser has read of the table, by the index of the dword, and what it has made of
it. -/
structure Parsed where
  reads : List Nat
  res : OpParameters
  ret : Int

/-- The loop over the headers: where the last table that matches begins, and its length. -/
def findTable (data : Nat → BitVec 32) : Option (Nat × Nat) :=
  let headerTable := fun i => data (2 + i)
  let nHeaders := ((data 1 >>> 16) &&& 0xff).toNat + 1
  (List.range nHeaders).foldl (fun found i =>
    if headerTable (i * 2) &&& 0xff00ff ≠ 0x010000 ∨ headerTable (i * 2 + 1) >>> 24 ≠ 0xff then found
    else some ((headerTable (i * 2 + 1) &&& 0xffffff).toNat / 4, (headerTable (i * 2) >>> 24).toNat))
    none

/-- The size from the second dword, if it is supported. -/
def chipSize (dword : BitVec 32) : Option (BitVec 8) :=
  if dword < 0x80000000 then
    if dword < 8 then none else some (BitVec.ofNat 8 (32 - dword.clz.toNat - 3))
  else
    let logSizeBits := dword &&& 0x7fffffff
    if logSizeBits < 3 ∨ logSizeBits > 255 + 3 then none else some ((logSizeBits - 3).setWidth 8)

/-- The types that are tried, from the last one on. -/
def considered (tryMultiIoCmd : Bool) : List IoType :=
  if tryMultiIoCmd then [.io444, .io222, .io144, .io114, .io122, .io112]
  else [.io144, .io114, .io122, .io112]

/-- The parameters with those of a type of read operations. -/
def withMode (ptable : Nat → BitVec 32) (res : OpParameters) (i : IoType) : OpParameters :=
  let l := operationLookup i
  { res with
    readIoType := i
    readOpcode := field (ptable l.opcodeIdx) l.opcodeShift 0xff
    readDummy := field (ptable l.dummyIdx) l.dummyShift 0x1f
    readModeCyc := field (ptable l.modeCycIdx) l.modeCycShift 0x7 }

/-- The loop that determines the fastest mode. -/
def readMode (ptable : Nat → BitVec 32) (ptableLen : Nat) (res : OpParameters) :
    List IoType → List Nat × OpParameters
  | [] => ([], res)
  | i :: is =>
    let l := operationLookup i
    if l.checkIdx ≥ ptableLen then readMode ptable ptableLen res is
    else if (ptable l.checkIdx >>> l.checkShift) &&& 1 ≠ 0 then
      ([l.checkIdx, l.opcodeIdx, l.dummyIdx, l.modeCycIdx], withMode ptable res i)
    else
      let (reads, res) := readMode ptable ptableLen res is
      (l.checkIdx :: reads, res)

/-- The erase operation found so far. -/
structure EraseOp where
  logEraseSize : BitVec 8
  eraseOpcode : BitVec 8
  eraseTimeShift : Nat

def eraseSize (ptable : Nat → BitVec 32) (l : EraseLookup) : BitVec 8 :=
  field (ptable l.sizeIdx) l.sizeShift 0xff

def eraseOp (ptable : Nat → BitVec 32) (l : EraseLookup) : EraseOp :=
  { logEraseSize := eraseSize ptable l
    eraseOpcode := field (ptable l.sizeIdx) l.opcodeShift 0xff
    eraseTimeShift := l.timeShift }

/-- The loop that finds the largest erase operation. -/
def eraseLoop (ptable : Nat → BitVec 32) : List EraseLookup → EraseOp → List Nat × EraseOp
  | [], op => ([], op)
  | l :: ls, op =>
    if eraseSize ptable l > op.logEraseSize then
      let (reads, op) := eraseLoop ptable ls (eraseOp ptable l)
      (l.sizeIdx :: l.sizeIdx :: reads, op)
    else
      let (reads, op) := eraseLoop ptable ls op
      (l.sizeIdx :: reads, op)

def eraseTimeoutMultiplier (dword : BitVec 32) : BitVec 32 :=
  ((2 * ((dword &&& 0xf) + 1)).setWidth 8).setWidth 32

/-- The timeout of a block of the erase operation whose time is at the shift. -/
def blockTimeout (ptable : Nat → BitVec 32) (eraseTimeShift : Nat) : BitVec 32 :=
  eraseTimeoutMultiplier (ptable 9) * calcEraseTime ((ptable 9 >>> eraseTimeShift).setWidth 8) false

/-- The part that takes over the erase operation. -/
def takeErase (ptable : Nat → BitVec 32) (ptableLen : Nat) (op : EraseOp) (res : OpParameters) :
    List Nat × OpParameters :=
  if op.logEraseSize ≠ 0 then
    let res := { res with logEraseSize := op.logEraseSize, eraseOpcode := op.eraseOpcode }
    if ptableLen ≥ 10 then
      ([9, 9], { res with eraseBlockTimeout := blockTimeout ptable op.eraseTimeShift })
    else ([], res)
  else ([], res)

/-- The part that takes over the times of the chip and the page size. -/
def takeChip (ptable : Nat → BitVec 32) (ptableLen : Nat) (res : OpParameters) :
    List Nat × OpParameters :=
  if ptableLen ≥ 11 then
    ([9, 10, 10],
      { res with
        eraseChipTimeout :=
          eraseTimeoutMultiplier (ptable 9) * calcEraseTime ((ptable 10 >>> 24).setWidth 8) true
        logPageSize := field (ptable 10) 4 0xf })
  else ([], res)

/-- The part of `flashdrv_parseSfdp` behind the search for the table. -/
def parseTable (ptable : Nat → BitVec 32) (ptableLen : Nat) (res : OpParameters)
    (tryMultiIoCmd : Bool) : Parsed :=
  let addrMode := field (ptable 0) 17 0x3
  let res := { res with addrMode := if addrMode = 0x3 then ADDRMODE_3B else addrMode }
  match chipSize (ptable 1) with
  | none => ⟨[0, 1], res, -EINVAL⟩
  | some size =>
    let res := { res with logChipSize := size }
    let res := { res with readIoType := .io111, readOpcode := 0x3, readDummy := 0 }
    let (reads, res) := readMode ptable ptableLen res (considered tryMultiIoCmd)
    let (eraseReads, op) :=
      if ptableLen ≥ 9 then eraseLoop ptable eraseLookup ⟨0, 0, 0⟩ else ([], ⟨0, 0, 0⟩)
    let (timeReads, res) := takeErase ptable ptableLen op res
    let (chipReads, res) := takeChip ptable ptableLen res
    ⟨[0, 1] ++ reads ++ eraseReads ++ timeReads ++ chipReads, res, EOK⟩

/-- `flashdrv_parseSfdp`. -/
def parseSfdp (data : Nat → BitVec 32) (res : OpParameters) (tryMultiIoCmd : Bool) : Parsed :=
  if data 0 ≠ 0x50444653 then ⟨[], res, -EINVAL⟩
  else if (data 1 >>> 8) &&& 0xff ≠ 0x01 then ⟨[], res, -EINVAL⟩
  else
    match findTable data with
    | none => ⟨[], res, -EINVAL⟩
    | some (ptable, ptableLen) =>
      if ptableLen < 2 then ⟨[], res, -EINVAL⟩
      else parseTable (fun i => data (ptable + i)) ptableLen res tryMultiIoCmd

end Plo.Devices.Sfdp
