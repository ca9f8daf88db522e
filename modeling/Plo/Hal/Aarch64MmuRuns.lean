import Plo.Base.Latest
import Plo.Hal.Aarch64Mmu
import Mathlib.Data.Nat.Basic
import Mathlib.Tactic.SplitIfs

/-!
What the AArch64 tables translate to after `mmu_init` and any calls of
`mmu_mapAddr`: an address of the first 4 GiB is translated as the latest call for its
section says, and to itself as device memory where there was none.
-/
namespace Plo.Hal.Aarch64

/-! Fields of descriptors. -/

def isXn (flags : BitVec 32) : Bool := flags &&& MMU_FLAG_XN ≠ 0
def isDevice (flags : BitVec 32) : Bool := flags &&& MMU_FLAG_DEVICE ≠ 0
def isUncached (flags : BitVec 32) : Bool := flags &&& MMU_FLAG_UNCACHED ≠ 0

/-- The bits that `mmu_mapAddr` adds to the section's address. -/
def descrBits (xn device uncached : Bool) : BitVec 64 :=
  DESCR_ISH ||| DESCR_AF ||| DESCR_VALID ||| (if xn then DESCR_PXN else 0) |||
    (if device then DESCR_ATTR MAIR_IDX_DEVICE
      else if uncached then DESCR_ATTR MAIR_IDX_NONCACHED
      else DESCR_ATTR MAIR_IDX_CACHED)

theorem descriptor_eq (paddr : BitVec 64) (flags : BitVec 32) :
    descriptor paddr flags = (paddr &&& ~~~(SIZE_MMU_SECTION_REGION - 1)) |||
      descrBits (isXn flags) (isDevice flags) (isUncached flags) := by
  simp only [descriptor, descrBits, isXn, isDevice, isUncached, decide_eq_true_eq]
  split_ifs <;> simp [BitVec.or_assoc]

/-- The default of `mmu_init` is the descriptor of execute-never device memory. -/
theorem initDescriptor_eq (addr : BitVec 64) :
    initDescriptor addr = descriptor addr (MMU_FLAG_XN ||| MMU_FLAG_DEVICE) := by
  have hbits : descrBits (isXn (MMU_FLAG_XN ||| MMU_FLAG_DEVICE))
      (isDevice (MMU_FLAG_XN ||| MMU_FLAG_DEVICE)) (isUncached (MMU_FLAG_XN ||| MMU_FLAG_DEVICE)) =
      DESCR_PXN ||| (DESCR_ATTR MAIR_IDX_DEVICE ||| (DESCR_ISH ||| (DESCR_AF ||| DESCR_VALID))) := by
    decide
  rw [descriptor_eq, hbits, initDescriptor]
  simp only [BitVec.or_assoc]

/-- The index into `mair` for the flags. -/
def attrIndex (device uncached : Bool) : BitVec 3 :=
  if device then 2 else if uncached then 1 else 0

theorem extractLsb'_descriptor (paddr : BitVec 64) (flags : BitVec 32) (start len : Nat) :
    (descriptor paddr flags).extractLsb' start len =
      (paddr.extractLsb' start len &&& (~~~(SIZE_MMU_SECTION_REGION - 1)).extractLsb' start len) |||
        (descrBits (isXn flags) (isDevice flags) (isUncached flags)).extractLsb' start len := by
  rw [descriptor_eq, BitVec.extractLsb'_or, BitVec.extractLsb'_and]

theorem descriptor_block (paddr : BitVec 64) (flags : BitVec 32) :
    (descriptor paddr flags).extractLsb' 0 2 = 1#2 := by
  have hmask : (~~~(SIZE_MMU_SECTION_REGION - 1)).extractLsb' 0 2 = 0#2 := by decide
  have hbits : ∀ xn device uncached, (descrBits xn device uncached).extractLsb' 0 2 = 1#2 := by
    decide
  rw [extractLsb'_descriptor, hmask, hbits, BitVec.and_zero, BitVec.zero_or]

theorem descriptor_attr (paddr : BitVec 64) (flags : BitVec 32) :
    (descriptor paddr flags).extractLsb' 2 3 = attrIndex (isDevice flags) (isUncached flags) := by
  have hmask : (~~~(SIZE_MMU_SECTION_REGION - 1)).extractLsb' 2 3 = 0#3 := by decide
  have hbits : ∀ xn device uncached,
      (descrBits xn device uncached).extractLsb' 2 3 = attrIndex device uncached := by decide
  rw [extractLsb'_descriptor, hmask, hbits, BitVec.and_zero, BitVec.zero_or]

theorem descriptor_address (paddr : BitVec 64) (flags : BitVec 32) :
    (descriptor paddr flags).extractLsb' 21 27 = paddr.extractLsb' 21 27 := by
  have hmask : (~~~(SIZE_MMU_SECTION_REGION - 1)).extractLsb' 21 27 = BitVec.allOnes 27 := by decide
  have hbits : ∀ xn device uncached, (descrBits xn device uncached).extractLsb' 21 27 = 0#27 := by
    decide
  rw [extractLsb'_descriptor, hmask, hbits, BitVec.and_allOnes, BitVec.or_zero]

/-- Above the physical address the bits are the added ones. -/
theorem descriptor_upper {paddr : BitVec 64} (hpaddr : paddr.toNat < 2 ^ 48) (flags : BitVec 32) :
    (descriptor paddr flags).extractLsb' 53 2 = (BitVec.ofBool (isXn flags)).setWidth 2 := by
  have hzero : paddr.extractLsb' 53 2 = 0#2 := by
    apply BitVec.eq_of_toNat_eq
    rw [BitVec.extractLsb'_toNat, Nat.shiftRight_eq_div_pow, Nat.div_eq_of_lt (by omega)]
    rfl
  have hbits : ∀ xn device uncached,
      (descrBits xn device uncached).extractLsb' 53 2 = (BitVec.ofBool xn).setWidth 2 := by decide
  rw [extractLsb'_descriptor, hzero, hbits, BitVec.zero_and, BitVec.zero_or]

theorem getLsbD_of_extract {x : BitVec 64} {start len i : Nat} {v : BitVec len} (hi : i < len)
    (h : x.extractLsb' start len = v) : x.getLsbD (start + i) = v.getLsbD i := by
  rw [← h, BitVec.getLsbD_extractLsb', decide_eq_true hi, Bool.true_and]

theorem descriptor_accessed (paddr : BitVec 64) (flags : BitVec 32) :
    (descriptor paddr flags).getLsbD 10 = true := by
  have hfield : (descriptor paddr flags).extractLsb' 10 1 = 1#1 := by
    have hmask : (~~~(SIZE_MMU_SECTION_REGION - 1)).extractLsb' 10 1 = 0#1 := by decide
    have hbits : ∀ xn device uncached,
        (descrBits xn device uncached).extractLsb' 10 1 = 1#1 := by decide
    rw [extractLsb'_descriptor, hmask, hbits, BitVec.and_zero, BitVec.zero_or]
  exact getLsbD_of_extract (i := 0) (by decide) hfield

/-- Execution is forbidden at EL1 only: the bit that `mmu_mapAddr` sets is not the one
the other levels read. -/
theorem descriptor_execNever {paddr : BitVec 64} (hpaddr : paddr.toNat < 2 ^ 48)
    (flags : BitVec 32) (el : El) :
    execNever el (descriptor paddr flags) = (decide (el = .el1) && isXn flags) := by
  have hupper := descriptor_upper hpaddr flags
  have h53 := getLsbD_of_extract (i := 0) (by decide) hupper
  have h54 := getLsbD_of_extract (i := 1) (by decide) hupper
  cases el
  · rw [execNever, h53]
    cases isXn flags <;> rfl
  · rw [execNever, h54]
    cases isXn flags <;> rfl
  · rw [execNever, h54]
    cases isXn flags <;> rfl

/-! The places in the tables. -/

theorem idx1_toNat (vaddr : BitVec 64) : (idx1 vaddr).toNat = vaddr.toNat / 2 ^ 30 % 4 := by
  have hmask : ((1#64 <<< 2) - 1).toNat = 2 ^ 2 - 1 := by decide
  rw [idx1, BitVec.toNat_and, hmask, Nat.and_two_pow_sub_one_eq_mod, BitVec.toNat_ushiftRight,
    Nat.shiftRight_eq_div_pow]

theorem idx2_toNat (vaddr : BitVec 64) : (idx2 vaddr).toNat = vaddr.toNat / 2 ^ 21 % 512 := by
  have hmask : ((1#64 <<< 9) - 1).toNat = 2 ^ 9 - 1 := by decide
  rw [idx2, BitVec.toNat_and, hmask, Nat.and_two_pow_sub_one_eq_mod, BitVec.toNat_ushiftRight,
    Nat.shiftRight_eq_div_pow]

/-- The section of an address: the upper half of the address is not looked at. -/
def sectionOf (vaddr : BitVec 64) : Nat := vaddr.toNat / 2 ^ 21 % 2048

variable (T : Tables)

/-- The entry of a section. -/
def Tables.sectionEntry (s : Nat) : Nat := T.entry2 (s / 512) (s % 512)

theorem entry2_idx (vaddr : BitVec 64) :
    T.entry2 (idx1 vaddr).toNat (idx2 vaddr).toNat = T.sectionEntry (sectionOf vaddr) := by
  have h1 : vaddr.toNat / 2 ^ 30 % 4 = vaddr.toNat / 2 ^ 21 % 2048 / 512 := by omega
  have h2 : vaddr.toNat / 2 ^ 21 % 512 = vaddr.toNat / 2 ^ 21 % 2048 % 512 := by omega
  rw [idx1_toNat, idx2_toNat, Tables.sectionEntry, sectionOf, h1, h2]

theorem sectionEntry_eq (s : Nat) : T.sectionEntry s = T.ttl2 + 8 * s := by
  rw [Tables.sectionEntry, Tables.entry2]
  omega

theorem sectionOf_lt (vaddr : BitVec 64) : sectionOf vaddr < 2048 := Nat.mod_lt _ (by decide)

theorem sectionOf_initAddr {i : Nat} (hi : i < 2048) : sectionOf (initAddr i) = i := by
  rw [sectionOf, initAddr, BitVec.toNat_ofNat]
  omega

/-- A table entry and a section's entry are different words. -/
theorem entry1_ne_sectionEntry {i s : Nat} (hi : i < 4) (hs : s < 2048) :
    T.entry1 i ≠ T.sectionEntry s := by
  rw [sectionEntry_eq, Tables.entry1]
  have hapart := T.apart
  omega

/-! What the tables hold. -/

/-- A call's word, by its section. -/
theorem latest_sectionEntry (calls : List MapCall) (s : Nat) :
    latest (fun c : MapCall => T.entry2 (idx1 c.vaddr).toNat (idx2 c.vaddr).toNat)
        (T.sectionEntry s) calls =
      latest (fun c => sectionOf c.vaddr) s calls := by
  refine latest_congr fun c _ => ?_
  rw [entry2_idx, sectionEntry_eq, sectionEntry_eq]
  omega

theorem mmuInit_section (mem : Mem) {s : Nat} (hs : s < 2048) :
    mmuInit T mem (T.sectionEntry s) = initDescriptor (initAddr s) := by
  have hlatest : latest (fun i : Nat => T.entry2 (idx1 (initAddr i)).toNat (idx2 (initAddr i)).toNat)
      (T.sectionEntry s) (List.range 2048) = some s := by
    refine latest_eq_some (List.mem_range.mpr hs) ?_ fun j hj hkey => ?_
    · rw [entry2_idx, sectionOf_initAddr hs]
    · rw [entry2_idx, sectionOf_initAddr (List.mem_range.mp hj), sectionEntry_eq,
        sectionEntry_eq] at hkey
      omega
  rw [mmuInit, foldl_update, hlatest]
  rfl

theorem mmuInit_table (mem : Mem) {i : Nat} (hi : i < 4) :
    mmuInit T mem (T.entry1 i) = tableEntry T i := by
  have hnone : latest (fun i : Nat => T.entry2 (idx1 (initAddr i)).toNat (idx2 (initAddr i)).toNat)
      (T.entry1 i) (List.range 2048) = none := by
    refine latest_eq_none_iff.mpr fun j hj hkey => ?_
    rw [entry2_idx] at hkey
    exact entry1_ne_sectionEntry T hi (sectionOf_lt _) hkey.symm
  have hlatest : latest T.entry1 (T.entry1 i) (List.range 4) = some i := by
    refine latest_eq_some (List.mem_range.mpr hi) rfl fun j _ hkey => ?_
    simp only [Tables.entry1] at hkey
    omega
  rw [mmuInit, foldl_update, hnone, Option.map_none, Option.getD_none, foldl_update, hlatest]
  rfl

/-- The call whose mapping a section has: the latest one, or what `mmu_init` did. -/
def mapping (calls : List MapCall) (s : Nat) : MapCall :=
  (latest (fun c : MapCall => sectionOf c.vaddr) s calls).getD
    ⟨initAddr s, initAddr s, MMU_FLAG_XN ||| MMU_FLAG_DEVICE⟩

theorem foldl_mmuMapAddr (mem : Mem) (calls : List MapCall) :
    calls.foldl (mmuMapAddr T) mem = calls.foldl (fun mem c => Function.update mem
      (T.entry2 (idx1 c.vaddr).toNat (idx2 c.vaddr).toNat) (descriptor c.paddr c.flags)) mem := rfl

/-- The section entries after `mmu_init` and any calls. -/
theorem mem_section (mem : Mem) (calls : List MapCall) {s : Nat} (hs : s < 2048) :
    calls.foldl (mmuMapAddr T) (mmuInit T mem) (T.sectionEntry s) =
      descriptor (mapping calls s).paddr (mapping calls s).flags := by
  rw [foldl_mmuMapAddr, foldl_update, latest_sectionEntry T calls s, mmuInit_section T mem hs,
    initDescriptor_eq, mapping]
  cases latest (fun c : MapCall => sectionOf c.vaddr) s calls with
  | none => rw [Option.map_none, Option.getD_none, Option.getD_none]
  | some c => rw [Option.map_some, Option.getD_some, Option.getD_some]

theorem mem_table (mem : Mem) (calls : List MapCall) {i : Nat} (hi : i < 4) :
    calls.foldl (mmuMapAddr T) (mmuInit T mem) (T.entry1 i) = tableEntry T i := by
  have hnone : latest (fun c : MapCall => T.entry2 (idx1 c.vaddr).toNat (idx2 c.vaddr).toNat)
      (T.entry1 i) calls = none := by
    refine latest_eq_none_iff.mpr fun c _ hkey => ?_
    rw [entry2_idx] at hkey
    exact entry1_ne_sectionEntry T hi (sectionOf_lt _) hkey.symm
  rw [foldl_mmuMapAddr, foldl_update, hnone, Option.map_none, Option.getD_none, mmuInit_table T mem hi]

/-! The walk. -/

theorem tableEntry_type {i : Nat} : (tableEntry T i).extractLsb' 0 2 = 3#2 := by
  have haligned : (BitVec.ofNat 64 (T.ttl2 + 4096 * i)).extractLsb' 0 2 = 0#2 := by
    apply BitVec.eq_of_toNat_eq
    rw [BitVec.extractLsb'_toNat, BitVec.toNat_ofNat, Nat.shiftRight_zero]
    have hdvd := T.ttl2_aligned
    change (T.ttl2 + 4096 * i) % 2 ^ 64 % 2 ^ 2 = 0
    omega
  have hbits : (DESCR_VALID ||| DESCR_TABLE).extractLsb' 0 2 = 3#2 := by decide
  rw [tableEntry, BitVec.or_assoc, BitVec.extractLsb'_or, haligned, hbits, BitVec.zero_or]

theorem tableEntry_next {i : Nat} (hi : i < 4) : nextTable (tableEntry T i) = T.ttl2 + 4096 * i := by
  have hdvd := T.ttl2_aligned
  have hfits := T.ttl2_fits
  have hbits : (DESCR_VALID ||| DESCR_TABLE).extractLsb' 12 36 = 0#36 := by decide
  have hfield : (tableEntry T i).extractLsb' 12 36 =
      (BitVec.ofNat 64 (T.ttl2 + 4096 * i)).extractLsb' 12 36 := by
    rw [tableEntry, BitVec.or_assoc, BitVec.extractLsb'_or, hbits, BitVec.or_zero]
  have hnat := congrArg BitVec.toNat hfield
  rw [BitVec.extractLsb'_toNat, BitVec.extractLsb'_toNat, BitVec.toNat_ofNat,
    Nat.shiftRight_eq_div_pow, Nat.shiftRight_eq_div_pow] at hnat
  rw [nextTable]
  omega

/-! The registers. -/

theorem extract_shiftLeft_below (x : BitVec 64) {start len n : Nat} (h : start + len ≤ n) :
    (x <<< n).extractLsb' start len = BitVec.ofNat len 0 := by
  refine BitVec.eq_of_getLsbD_eq fun i hi => ?_
  rw [BitVec.getLsbD_extractLsb', BitVec.getLsbD_shiftLeft, BitVec.getLsbD_zero]
  have hbelow : start + i < n := by omega
  simp [hbelow]

theorem extract_shiftLeft_at (x : BitVec 64) {len n : Nat} (h : n + len ≤ 64) :
    (x <<< n).extractLsb' n len = x.extractLsb' 0 len := by
  refine BitVec.eq_of_getLsbD_eq fun i hi => ?_
  rw [BitVec.getLsbD_extractLsb', BitVec.getLsbD_extractLsb', BitVec.getLsbD_shiftLeft]
  have hin : n + i < 64 := by omega
  have hpast : ¬n + i < n := by omega
  simp [hin, hpast]

theorem extract_ushiftRight (x : BitVec 64) (start len n : Nat) :
    (x >>> n).extractLsb' start len = x.extractLsb' (n + start) len := by
  refine BitVec.eq_of_getLsbD_eq fun i _ => ?_
  rw [BitVec.getLsbD_extractLsb', BitVec.getLsbD_extractLsb', BitVec.getLsbD_ushiftRight,
    Nat.add_assoc]

theorem extract_and_seven (x : BitVec 64) : (x &&& 0x7).extractLsb' 0 3 = x.extractLsb' 0 3 := by
  have hmask : (0x7#64).extractLsb' 0 3 = BitVec.allOnes 3 := by decide
  rw [BitVec.extractLsb'_and]
  exact (congrArg _ hmask).trans BitVec.and_allOnes

/-- The bits of `tcr` that do not come from the processor. -/
def tcrBits : BitVec 64 :=
  (1#64 <<< 23) ||| (0#64 <<< 14) ||| (3#64 <<< 12) ||| (1#64 <<< 10) ||| (1#64 <<< 8) |||
    (0#64 <<< 7) ||| 32#64

/-- `tcr` as `mmu_init` computes it. -/
def tcrInit (id : BitVec 64) : BitVec 64 := ((id &&& 0x7) <<< 32) ||| tcrBits

theorem tcrInit_below (id : BitVec 64) {start len : Nat} (h : start + len ≤ 32) :
    (tcrInit id).extractLsb' start len = tcrBits.extractLsb' start len := by
  rw [tcrInit, BitVec.extractLsb'_or, extract_shiftLeft_below _ h, BitVec.zero_or]

theorem tcrInit_size (id : BitVec 64) : (tcrInit id).extractLsb' 32 3 = id.extractLsb' 0 3 := by
  have hbits : tcrBits.extractLsb' 32 3 = 0#3 := by decide
  rw [tcrInit, BitVec.extractLsb'_or, hbits, BitVec.or_zero, extract_shiftLeft_at _ (by decide),
    extract_and_seven]

/-- `tcr` as `mmu_setTranslationRegs` rewrites it for EL2. -/
def tcrEl2 (tcr : BitVec 64) : BitVec 64 :=
  (tcr &&& ~~~(0x7#64 <<< 32)) ||| (((tcr >>> 32) &&& 0x7) <<< 16)

theorem tcrEl2_below (tcr : BitVec 64) {start len : Nat} (h : start + len ≤ 16)
    (hmask : (~~~(0x7#64 <<< 32)).extractLsb' start len = BitVec.allOnes len) :
    (tcrEl2 tcr).extractLsb' start len = tcr.extractLsb' start len := by
  rw [tcrEl2, BitVec.extractLsb'_or, extract_shiftLeft_below _ h, BitVec.or_zero,
    BitVec.extractLsb'_and, hmask, BitVec.and_allOnes]

theorem tcrEl2_size (id : BitVec 64) :
    (tcrEl2 (tcrInit id)).extractLsb' 16 3 = id.extractLsb' 0 3 := by
  have hbits : tcrBits.extractLsb' 16 3 = 0#3 := by decide
  rw [tcrEl2, BitVec.extractLsb'_or, BitVec.extractLsb'_and, tcrInit_below id (by decide), hbits,
    BitVec.zero_and, BitVec.zero_or, extract_shiftLeft_at _ (by decide), extract_and_seven,
    extract_ushiftRight, tcrInit_size]

/-- The physical addresses that the programmed regime gives out. -/
def regimeBits (el : El) (id : BitVec 64) : Nat :=
  if el = .el3 then 32 else paBits (id.extractLsb' 0 3)

/-- What a walk reads of the registers. -/
structure RegsFacts (el : El) (id : BitVec 64) (r : Regs) : Prop where
  t0sz : r.tcr.extractLsb' 0 6 = 32#6
  granule : r.tcr.extractLsb' 14 2 = 0#2
  enabled : el = .el1 → r.tcr.getLsbD 7 = false
  size : paBits (physicalSize el r.tcr) = regimeBits el id
  ttbr0 : r.ttbr0 = BitVec.ofNat 64 T.ttl1

theorem regsFacts (el : El) (id : BitVec 64) : RegsFacts T el id (mmuInitRegs T el id) := by
  have hinit : mmuInitRegs T el id = mmuSetTranslationRegs el (BitVec.ofNat 64 T.ttl1) (tcrInit id)
      (mmuInitRegs T el id).mair := by
    cases el <;> simp only [mmuInitRegs, mmuSetTranslationRegs, tcrInit, tcrBits, BitVec.or_assoc]
  have h6 : (tcrInit id).extractLsb' 0 6 = 32#6 := (tcrInit_below id (by decide)).trans (by decide)
  have h14 : (tcrInit id).extractLsb' 14 2 = 0#2 := (tcrInit_below id (by decide)).trans (by decide)
  have h7 : (tcrInit id).extractLsb' 7 1 = 0#1 := (tcrInit_below id (by decide)).trans (by decide)
  have h16 : (tcrInit id).extractLsb' 16 3 = 0#3 := (tcrInit_below id (by decide)).trans (by decide)
  rw [hinit]
  cases el with
  | el1 =>
      exact ⟨h6, h14, fun _ => getLsbD_of_extract (i := 0) (by decide) h7,
        congrArg paBits (tcrInit_size id), rfl⟩
  | el2 =>
      refine ⟨?_, ?_, (fun h => nomatch h), congrArg paBits (tcrEl2_size id), rfl⟩
      · exact (tcrEl2_below _ (by decide) (by decide)).trans h6
      · exact (tcrEl2_below _ (by decide) (by decide)).trans h14
  | el3 => exact ⟨h6, h14, (fun h => nomatch h), congrArg paBits h16, rfl⟩

/-- The memory attributes: cached, uncached and device memory. -/
def attrByte (device uncached : Bool) : BitVec 8 :=
  if device then 0x04 else if uncached then 0x44 else 0xff

/-- The bytes of `mair`, by their indices. -/
def mairInit : BitVec 64 :=
  MAIR_ATTR MAIR_IDX_CACHED (MAIR_NORMAL MAIR_NOR_C_WB_NT_RA_WA MAIR_NOR_C_WB_NT_RA_WA) |||
    MAIR_ATTR MAIR_IDX_NONCACHED (MAIR_NORMAL MAIR_NOR_NC MAIR_NOR_NC) |||
    MAIR_ATTR MAIR_IDX_DEVICE (MAIR_DEVICE MAIR_DEV_nGnRE) |||
    MAIR_ATTR MAIR_IDX_S_ORDERED (MAIR_DEVICE MAIR_DEV_nGnRnE)

theorem mmuInitRegs_mair (el : El) (id : BitVec 64) : (mmuInitRegs T el id).mair = mairInit := by
  cases el <;> rfl

theorem mair_attr (el : El) (id : BitVec 64) (device uncached : Bool) :
    (mmuInitRegs T el id).mair.extractLsb' (8 * (attrIndex device uncached).toNat) 8 =
      attrByte device uncached := by
  have hall : ∀ device uncached, mairInit.extractLsb' (8 * (attrIndex device uncached).toNat) 8 =
      attrByte device uncached := by decide
  rw [mmuInitRegs_mair, hall]

/-! Translation. -/

/-- What `leaf` gives for a section descriptor. -/
theorem leaf_descriptor (el : El) (id : BitVec 64) {paddr : BitVec 64}
    (hpaddr : paddr.toNat < 2 ^ 48) (flags : BitVec 32) (va : Nat) :
    leaf el (mmuInitRegs T el id) (descriptor paddr flags) 21 va =
      if 2 ^ regimeBits el id ≤ paddr.toNat / 2 ^ 21 * 2 ^ 21 + va % 2 ^ 21 then .error .addressSize
      else .ok ⟨paddr.toNat / 2 ^ 21 * 2 ^ 21 + va % 2 ^ 21,
        attrByte (isDevice flags) (isUncached flags), !(decide (el = .el1) && isXn flags)⟩ := by
  have hfield := congrArg BitVec.toNat (descriptor_address paddr flags)
  rw [BitVec.extractLsb'_toNat, BitVec.extractLsb'_toNat, Nat.shiftRight_eq_div_pow,
    Nat.shiftRight_eq_div_pow] at hfield
  have hpa : (descriptor paddr flags).toNat % 2 ^ 48 / 2 ^ 21 = paddr.toNat / 2 ^ 21 := by omega
  simp only [leaf]
  rw [hpa, (regsFacts T el id).size, descriptor_accessed, descriptor_attr, mair_attr,
    descriptor_execNever hpaddr, if_neg (by decide : ¬true = false)]

/-- What the loader says an address translates to. -/
def translated (el : El) (id : BitVec 64) (calls : List MapCall) (va : Nat) : Except Fault Access :=
  if 2 ^ 32 ≤ va then .error .translation
  else
    let c := mapping calls (va / 2 ^ 21)
    let pa := c.paddr.toNat / 2 ^ 21 * 2 ^ 21 + va % 2 ^ 21
    if 2 ^ regimeBits el id ≤ pa then .error .addressSize
    else .ok ⟨pa, attrByte (isDevice c.flags) (isUncached c.flags),
      !(decide (el = .el1) && isXn c.flags)⟩

theorem mapping_paddr_lt {calls : List MapCall} (hcalls : ∀ c ∈ calls, c.paddr.toNat < 2 ^ 48)
    {s : Nat} (hs : s < 2048) : (mapping calls s).paddr.toNat < 2 ^ 48 := by
  rw [mapping]
  cases h : latest (fun c : MapCall => sectionOf c.vaddr) s calls with
  | none =>
      rw [Option.getD_none, initAddr, BitVec.toNat_ofNat]
      omega
  | some c => exact hcalls c (latest_mem h)

/-- The tables hold what the calls say. -/
structure Mapped (mem : Mem) (calls : List MapCall) : Prop where
  table : ∀ i < 4, mem (T.entry1 i) = tableEntry T i
  sections : ∀ s < 2048,
    mem (T.sectionEntry s) = descriptor (mapping calls s).paddr (mapping calls s).flags

theorem mapped_calls (mem : Mem) (calls : List MapCall) :
    Mapped T (calls.foldl (mmuMapAddr T) (mmuInit T mem)) calls :=
  ⟨fun _ hi => mem_table T mem calls hi, fun _ hs => mem_section T mem calls hs⟩

variable {T} in
theorem Mapped.walk_eq {mem : Mem} {calls : List MapCall} (h : Mapped T mem calls) (el : El)
    (id_aa64mmfr0_el1 : BitVec 64) (hcalls : ∀ c ∈ calls, c.paddr.toNat < 2 ^ 48) (va : Nat) :
    walk el (mmuInitRegs T el id_aa64mmfr0_el1) mem va = translated el id_aa64mmfr0_el1 calls va := by
  have hregs := regsFacts T el id_aa64mmfr0_el1
  have hdvd := T.ttl1_aligned
  have hfits := T.ttl1_fits
  have hbase : (BitVec.ofNat 64 T.ttl1).toNat % 2 ^ 48 / 2 ^ 5 * 2 ^ 5 = T.ttl1 := by
    rw [BitVec.toNat_ofNat]
    omega
  have h32 : (32#6).toNat = 32 := rfl
  simp only [walk, translated, hregs.t0sz, hregs.granule, hregs.ttbr0, h32]
  rw [if_neg (by decide)]
  by_cases hva : 2 ^ 32 ≤ va
  · rw [if_pos (Or.inl hva), if_pos hva]
  · have hs : va / 2 ^ 21 < 2048 := by omega
    have hi : va / 2 ^ 30 < 4 := by omega
    have hlow : ¬(2 ^ (64 - 32) ≤ va ∨
        (el = .el1 ∧ (mmuInitRegs T el id_aa64mmfr0_el1).tcr.getLsbD 7 = true)) := by
      rintro (hle | ⟨hel, hoff⟩)
      · exact hva hle
      · rw [hregs.enabled hel] at hoff
        exact absurd hoff (by decide)
    have hentry : T.ttl2 + 4096 * (va / 2 ^ 30) + 8 * (va / 2 ^ 21 % 512) =
        T.sectionEntry (va / 2 ^ 21) := by
      rw [sectionEntry_eq]
      omega
    have hblock : (descriptor (mapping calls (va / 2 ^ 21)).paddr
        (mapping calls (va / 2 ^ 21)).flags).extractLsb' 0 2 = 1#2 := descriptor_block _ _
    rw [if_neg hlow, if_neg hva, hbase, ← Tables.entry1, h.table _ hi, walkLevel1,
      if_pos (tableEntry_type T), tableEntry_next T hi, hentry, h.sections _ hs,
      walkLevel2, hblock, if_neg (by decide), if_pos rfl,
      leaf_descriptor T el _ (mapping_paddr_lt hcalls hs)]

/-- After `mmu_init` and any calls of `mmu_mapAddr` the processor translates every
address as the calls say. -/
theorem walk_mapped (T : Tables) (el : El) (id_aa64mmfr0_el1 : BitVec 64) (mem : Mem)
    (calls : List MapCall) (hcalls : ∀ c ∈ calls, c.paddr.toNat < 2 ^ 48) (va : Nat) :
    walk el (mmuInitRegs T el id_aa64mmfr0_el1) (calls.foldl (mmuMapAddr T) (mmuInit T mem)) va =
      translated el id_aa64mmfr0_el1 calls va :=
  (mapped_calls T mem calls).walk_eq el id_aa64mmfr0_el1 hcalls va

def sampleTables : Tables where
  ttl1 := 0x7c040
  ttl2 := 0x7d000
  ttl1_aligned := by decide
  ttl2_aligned := by decide
  ttl1_fits := by decide
  ttl2_fits := by decide
  apart := by decide

theorem walk_mapped_moved :
    walk .el2 (mmuInitRegs sampleTables .el2 2)
      ([⟨0x80200000, 0x200000, 2⟩, ⟨0x1234a00000, 0x300000, 1⟩].foldl (mmuMapAddr sampleTables)
        (mmuInit sampleTables fun _ => 0)) 0x234567 = .ok ⟨0x1234a34567, 0x44, true⟩ := by
  refine (walk_mapped sampleTables .el2 2 (fun _ => 0) _ ?_ 0x234567).trans (by decide)
  decide

end Plo.Hal.Aarch64
