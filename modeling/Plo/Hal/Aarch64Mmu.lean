import Mathlib.Algebra.Order.Ring.Nat
import Mathlib.Logic.Function.Basic
import Mathlib.Data.Nat.Init
import Mathlib.Tactic.Have

/-!
The translation tables of the AArch64 loader, as words in memory, and the walk by
which the processor reads them. One table of four entries points to four tables of
sections of 2 MiB; the loader only ever writes sections.
-/
namespace Plo.Hal.Aarch64

def SIZE_MMU_SECTION_REGION : BitVec 64 := 1 <<< 21

def MMU_FLAG_UNCACHED : BitVec 32 := 0x1
def MMU_FLAG_XN : BitVec 32 := 0x2
def MMU_FLAG_DEVICE : BitVec 32 := 0x4

def DESCR_VALID : BitVec 64 := 1 <<< 0
def DESCR_TABLE : BitVec 64 := 1 <<< 1
def DESCR_ATTR (x : BitVec 64) : BitVec 64 := (x &&& 0x7) <<< 2
def DESCR_ISH : BitVec 64 := 3 <<< 8
def DESCR_AF : BitVec 64 := 1 <<< 10
def DESCR_PXN : BitVec 64 := 1 <<< 53

def MAIR_IDX_CACHED : BitVec 64 := 0
def MAIR_IDX_NONCACHED : BitVec 64 := 1
def MAIR_IDX_DEVICE : BitVec 64 := 2
def MAIR_IDX_S_ORDERED : BitVec 64 := 3

def MAIR_ATTR (idx val : BitVec 64) : BitVec 64 := val <<< (idx * 8)
def MAIR_DEVICE (type : BitVec 64) : BitVec 64 := (type &&& 0x3) <<< 2
def MAIR_NORMAL (inner outer : BitVec 64) : BitVec 64 := (inner &&& 0xf) ||| ((outer &&& 0xf) <<< 4)
def MAIR_DEV_nGnRnE : BitVec 64 := 0x0
def MAIR_DEV_nGnRE : BitVec 64 := 0x1
def MAIR_NOR_NC : BitVec 64 := 0x4
def MAIR_NOR_C_WB_NT_RA_WA : BitVec 64 := 0xf

/-- Where the linker has put `ttl1` and `ttl2`, as their `aligned` attributes ask. -/
structure Tables where
  ttl1 : Nat
  ttl2 : Nat
  ttl1_aligned : 64 ∣ ttl1
  ttl2_aligned : 4096 ∣ ttl2
  ttl1_fits : ttl1 + 4 * 8 ≤ 2 ^ 48
  ttl2_fits : ttl2 + 4 * 4096 ≤ 2 ^ 48
  apart : ttl1 + 4 * 8 ≤ ttl2 ∨ ttl2 + 4 * 4096 ≤ ttl1

/-- Memory by the addresses of its 64-bit words. -/
abbrev Mem := Nat → BitVec 64

/-- The exception level, `currentEL`. -/
inductive El
  | el1
  | el2
  | el3
  deriving DecidableEq

/-- The registers of a translation regime. -/
structure Regs where
  ttbr0 : BitVec 64
  tcr : BitVec 64
  mair : BitVec 64

/-- `mmu_setTranslationRegs`: the registers of the level it runs at. -/
def mmuSetTranslationRegs (el : El) (ttbr0 tcr mair : BitVec 64) : Regs :=
  match el with
  | .el3 => ⟨ttbr0, tcr, mair⟩
  | .el2 => ⟨ttbr0, (tcr &&& ~~~(0x7#64 <<< 32)) ||| (((tcr >>> 32) &&& 0x7) <<< 16), mair⟩
  | .el1 => ⟨ttbr0, tcr, mair⟩

def Tables.entry1 (T : Tables) (idx1 : Nat) : Nat := T.ttl1 + 8 * idx1
def Tables.entry2 (T : Tables) (idx1 idx2 : Nat) : Nat := T.ttl2 + 4096 * idx1 + 8 * idx2

def idx1 (vaddr : BitVec 64) : BitVec 64 := (vaddr >>> 30) &&& ((1#64 <<< 2) - 1)
def idx2 (vaddr : BitVec 64) : BitVec 64 := (vaddr >>> 21) &&& ((1#64 <<< 9) - 1)

/-- The descriptor that `mmu_mapAddr` builds. -/
def descriptor (paddr : BitVec 64) (flags : BitVec 32) : BitVec 64 :=
  let descr := (paddr &&& ~~~(SIZE_MMU_SECTION_REGION - 1)) ||| DESCR_ISH ||| DESCR_AF ||| DESCR_VALID
  let descr := if flags &&& MMU_FLAG_XN ≠ 0 then descr ||| DESCR_PXN else descr
  if flags &&& MMU_FLAG_DEVICE ≠ 0 then descr ||| DESCR_ATTR MAIR_IDX_DEVICE
  else if flags &&& MMU_FLAG_UNCACHED ≠ 0 then descr ||| DESCR_ATTR MAIR_IDX_NONCACHED
  else descr ||| DESCR_ATTR MAIR_IDX_CACHED

/-- The arguments of `mmu_mapAddr`. -/
structure MapCall where
  paddr : BitVec 64
  vaddr : BitVec 64
  flags : BitVec 32

def mmuMapAddr (T : Tables) (mem : Mem) (c : MapCall) : Mem :=
  Function.update mem (T.entry2 (idx1 c.vaddr).toNat (idx2 c.vaddr).toNat)
    (descriptor c.paddr c.flags)

/-- The table entry `i` of the first loop of `mmu_init`. -/
def tableEntry (T : Tables) (i : Nat) : BitVec 64 :=
  BitVec.ofNat 64 (T.ttl2 + 4096 * i) ||| DESCR_VALID ||| DESCR_TABLE

/-- The address of the round `i` of its second loop, and the section written there. -/
def initAddr (i : Nat) : BitVec 64 := BitVec.ofNat 64 (i * 2 ^ 21)

def initDescriptor (addr : BitVec 64) : BitVec 64 :=
  (addr &&& ~~~(SIZE_MMU_SECTION_REGION - 1)) ||| DESCR_PXN ||| DESCR_ATTR MAIR_IDX_DEVICE |||
    DESCR_ISH ||| DESCR_AF ||| DESCR_VALID

/-- The two loops of `mmu_init`. -/
def mmuInit (T : Tables) (mem : Mem) : Mem :=
  let mem := (List.range 4).foldl
    (fun mem i => Function.update mem (T.entry1 i) (tableEntry T i)) mem
  (List.range 2048).foldl
    (fun mem i => Function.update mem
      (T.entry2 (idx1 (initAddr i)).toNat (idx2 (initAddr i)).toNat)
      (initDescriptor (initAddr i))) mem

/-- The rest of `mmu_init`; `id_aa64mmfr0_el1` is what the processor says of itself. -/
def mmuInitRegs (T : Tables) (el : El) (id_aa64mmfr0_el1 : BitVec 64) : Regs :=
  let ttbr0 := BitVec.ofNat 64 T.ttl1
  let tcr := ((id_aa64mmfr0_el1 &&& 0x7) <<< 32) ||| (1#64 <<< 23) ||| (0#64 <<< 14) |||
    (3#64 <<< 12) ||| (1#64 <<< 10) ||| (1#64 <<< 8) ||| (0#64 <<< 7) ||| 32#64
  let mair :=
    MAIR_ATTR MAIR_IDX_CACHED (MAIR_NORMAL MAIR_NOR_C_WB_NT_RA_WA MAIR_NOR_C_WB_NT_RA_WA) |||
    MAIR_ATTR MAIR_IDX_NONCACHED (MAIR_NORMAL MAIR_NOR_NC MAIR_NOR_NC) |||
    MAIR_ATTR MAIR_IDX_DEVICE (MAIR_DEVICE MAIR_DEV_nGnRE) |||
    MAIR_ATTR MAIR_IDX_S_ORDERED (MAIR_DEVICE MAIR_DEV_nGnRnE)
  mmuSetTranslationRegs el ttbr0 tcr mair

/-! The processor. -/

inductive Fault
  | translation
  | addressSize
  | accessFlag
  deriving DecidableEq

/-- What a translation gives: the physical address, the memory attribute of
`mair`, and whether the level itself may execute there. -/
structure Access where
  pa : Nat
  attr : BitVec 8
  exec : Bool
  deriving DecidableEq

/-- The size of physical addresses by the field of `id_aa64mmfr0_el1` or of `tcr`. -/
def paBits (ps : BitVec 3) : Nat :=
  match ps.toNat with
  | 0 => 32
  | 1 => 36
  | 2 => 40
  | 3 => 42
  | 4 => 44
  | _ => 48

/-- The field of `tcr`: its place is another one at the levels without a second half. -/
def physicalSize (el : El) (tcr : BitVec 64) : BitVec 3 :=
  match el with
  | .el1 => tcr.extractLsb' 32 3
  | .el2 | .el3 => tcr.extractLsb' 16 3

/-- The bit of a descriptor that forbids execution at the level. -/
def execNever (el : El) (descr : BitVec 64) : Bool :=
  match el with
  | .el1 => descr.getLsbD 53
  | .el2 | .el3 => descr.getLsbD 54

/-- A block or page of `2 ^ bits` bytes. -/
def leaf (el : El) (r : Regs) (descr : BitVec 64) (bits va : Nat) : Except Fault Access :=
  let pa := descr.toNat % 2 ^ 48 / 2 ^ bits * 2 ^ bits + va % 2 ^ bits
  if 2 ^ paBits (physicalSize el r.tcr) ≤ pa then .error .addressSize
  else if descr.getLsbD 10 = false then .error .accessFlag
  else .ok ⟨pa, r.mair.extractLsb' (8 * (descr.extractLsb' 2 3).toNat) 8, !execNever el descr⟩

/-- The table a descriptor points to. -/
def nextTable (descr : BitVec 64) : Nat := descr.toNat % 2 ^ 48 / 2 ^ 12 * 2 ^ 12

def walkLevel3 (el : El) (r : Regs) (descr : BitVec 64) (va : Nat) : Except Fault Access :=
  if descr.extractLsb' 0 2 = 3#2 then leaf el r descr 12 va else .error .translation

def walkLevel2 (el : El) (r : Regs) (mem : Mem) (descr : BitVec 64) (va : Nat) :
    Except Fault Access :=
  if descr.extractLsb' 0 2 = 3#2 then
    walkLevel3 el r (mem (nextTable descr + 8 * (va / 2 ^ 12 % 512))) va
  else if descr.extractLsb' 0 2 = 1#2 then leaf el r descr 21 va
  else .error .translation

def walkLevel1 (el : El) (r : Regs) (mem : Mem) (descr : BitVec 64) (va : Nat) :
    Except Fault Access :=
  if descr.extractLsb' 0 2 = 3#2 then
    walkLevel2 el r mem (mem (nextTable descr + 8 * (va / 2 ^ 21 % 512))) va
  else if descr.extractLsb' 0 2 = 1#2 then leaf el r descr 30 va
  else .error .translation

/-- The walk for 4 KiB granules that starts at level 1, which is what a `T0SZ` between
25 and 33 asks for; another regime is not described. -/
def walk (el : El) (r : Regs) (mem : Mem) (va : Nat) : Except Fault Access :=
  let t0sz := (r.tcr.extractLsb' 0 6).toNat
  let base := r.ttbr0.toNat % 2 ^ 48 / 2 ^ (37 - t0sz) * 2 ^ (37 - t0sz)
  if t0sz < 25 ∨ 33 < t0sz ∨ r.tcr.extractLsb' 14 2 ≠ 0 then .error .translation
  else if 2 ^ (64 - t0sz) ≤ va ∨ (el = .el1 ∧ r.tcr.getLsbD 7 = true) then .error .translation
  else walkLevel1 el r mem (mem (base + 8 * (va / 2 ^ 30))) va

end Plo.Hal.Aarch64
