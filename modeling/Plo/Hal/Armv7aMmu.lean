import Plo.Base.Sections
import Mathlib.Tactic.SplitIfs

/-!
The translation table of the ARMv7-A loader: one entry for each MiB of addresses. It is
given to both table registers, and the control register splits the addresses between
them.
-/
namespace Plo.Hal.Armv7a

def SIZE_MMU_SECTION_REGION : BitVec 32 := 0x100000

def MMU_FLAG_CACHED : BitVec 32 := 0x1
def MMU_FLAG_UNCACHED : BitVec 32 := 0x2
def MMU_FLAG_XN : BitVec 32 := 0x4

/-- Where the linker has put `ttl1`, as its `aligned` attribute asks. -/
structure Table where
  ttl1 : Nat
  aligned : 0x4000 ∣ ttl1
  fits : ttl1 + 0x4000 ≤ 2 ^ 32

/-- Memory by the addresses of its 32-bit words. -/
abbrev Mem := Nat → BitVec 32

def Table.entry (T : Table) (id : Nat) : Nat := T.ttl1 + 4 * id

/-- The fields that `mmu_mapAddr` works out from the flags. -/
structure Attributes where
  tex : BitVec 32
  ap : BitVec 32
  xn : BitVec 32
  cb : BitVec 32
  deriving DecidableEq

def attributes (flags : BitVec 32) : Attributes :=
  let a : Attributes := ⟨0, 0x3, 0, 0⟩
  let a := if flags &&& MMU_FLAG_UNCACHED ≠ 0 then { a with tex := 2, cb := 0 } else a
  let a := if flags &&& MMU_FLAG_CACHED ≠ 0 then { a with tex := 6, cb := 0x3 } else a
  if flags &&& MMU_FLAG_XN ≠ 0 then { a with tex := 0, xn := 1 } else a

def descriptor (paddr flags : BitVec 32) : BitVec 32 :=
  let a := attributes flags
  (paddr &&& ~~~(SIZE_MMU_SECTION_REGION - 1)) ||| (a.tex <<< 12) ||| (a.ap <<< 10) |||
    (a.xn <<< 4) ||| (a.cb <<< 2) ||| 0x2

/-- The arguments of `mmu_mapAddr`. -/
structure MapCall where
  paddr : BitVec 32
  vaddr : BitVec 32
  flags : BitVec 32

def mmuMapAddr (T : Table) (mem : Mem) (c : MapCall) : Mem :=
  Function.update mem (T.entry (c.vaddr >>> 20).toNat) (descriptor c.paddr c.flags)

/-- The mapping of an address to itself. -/
def identity (a : Nat) (flags : BitVec 32) : MapCall := ⟨BitVec.ofNat 32 a, BitVec.ofNat 32 a, flags⟩

/-- The registers that `mmu_init` writes: `mmu_setTTBR0` gives both table registers the
same value. -/
structure Regs where
  ttbcr : BitVec 32
  ttbr0 : BitVec 32
  ttbr1 : BitVec 32
  dacr : BitVec 32

def mmuSetTTBR0 (addr dacr : BitVec 32) : Regs := ⟨1, addr, addr, dacr⟩

/-- The table part of `mmu_init`: cleared first, then every section is mapped. -/
def mmuInit (T : Table) (mem : Mem) : Mem :=
  let mem := (List.range 0x1000).foldl (fun mem i => Function.update mem (T.entry i) 0) mem
  (List.range 0x1000).foldl
    (fun mem i => mmuMapAddr T mem (identity (i * 0x100000) (MMU_FLAG_UNCACHED ||| MMU_FLAG_XN))) mem

def mmuInitRegs (T : Table) : Regs :=
  mmuSetTTBR0 (BitVec.ofNat 32 T.ttl1 ||| (1 <<< 6) ||| (3 <<< 3) ||| 1) 0x00000001

/-! The processor. -/

inductive Fault
  | translation
  | domain
  /-- Small pages and supersections, which the loader does not use. -/
  | otherSize
  deriving DecidableEq

/-- A section: the physical address, the type of memory, and who may do what. -/
structure Access where
  pa : Nat
  tex : BitVec 3
  cb : BitVec 2
  ap : BitVec 3
  xn : Bool
  deriving DecidableEq

def sectionAccess (dacr descr : BitVec 32) (va : Nat) : Except Fault Access :=
  if (dacr >>> (2 * (descr.extractLsb' 5 4).toNat)).extractLsb' 0 1 = 0#1 then .error .domain
  else .ok ⟨descr.toNat / 2 ^ 20 * 2 ^ 20 + va % 2 ^ 20, descr.extractLsb' 12 3,
    descr.extractLsb' 2 2, descr.extractLsb' 15 1 ++ descr.extractLsb' 10 2, descr.getLsbD 4⟩

def walkEntry (dacr descr : BitVec 32) (va : Nat) : Except Fault Access :=
  if descr.extractLsb' 0 2 = 0#2 then .error .translation
  else if descr.extractLsb' 0 2 = 1#2 ∨ descr.getLsbD 18 = true then .error .otherSize
  else sectionAccess dacr descr va

/-- The walk of the short-descriptor format. With `N` in the control register the first
table register serves the addresses whose upper `N` bits are zero, and its table is
shorter by as many bits. -/
def walk (r : Regs) (mem : Mem) (va : Nat) : Except Fault Access :=
  let n := (r.ttbcr.extractLsb' 0 3).toNat
  if 2 ^ 32 ≤ va then .error .translation
  else if va / 2 ^ (32 - n) = 0 then
    walkEntry r.dacr (mem (r.ttbr0.toNat / 2 ^ (14 - n) * 2 ^ (14 - n) + 4 * (va / 2 ^ 20))) va
  else walkEntry r.dacr (mem (r.ttbr1.toNat / 2 ^ 14 * 2 ^ 14 + 4 * (va / 2 ^ 20))) va

/-! Fields of descriptors. -/

def isXn (flags : BitVec 32) : Bool := flags &&& MMU_FLAG_XN ≠ 0
def isCached (flags : BitVec 32) : Bool := flags &&& MMU_FLAG_CACHED ≠ 0
def isUncached (flags : BitVec 32) : Bool := flags &&& MMU_FLAG_UNCACHED ≠ 0

/-- The type of memory: execute-never memory is strongly ordered or write-back, whatever
the other flags ask for. -/
def texField (xn cached uncached : Bool) : BitVec 3 :=
  if xn then 0 else if cached then 6 else if uncached then 2 else 0

def cbField (cached : Bool) : BitVec 2 := if cached then 3 else 0

/-- The bits of a descriptor beside the address. -/
def descrBits (xn cached uncached : Bool) : BitVec 32 :=
  ((texField xn cached uncached).setWidth 32 <<< 12) ||| (0x3#32 <<< 10) |||
    ((BitVec.ofBool xn).setWidth 32 <<< 4) ||| ((cbField cached).setWidth 32 <<< 2) ||| 0x2

theorem attributes_eq (flags : BitVec 32) :
    attributes flags = ⟨(texField (isXn flags) (isCached flags) (isUncached flags)).setWidth 32, 3,
      (BitVec.ofBool (isXn flags)).setWidth 32, (cbField (isCached flags)).setWidth 32⟩ := by
  simp only [attributes, isXn, isCached, isUncached, texField, cbField, decide_eq_true_eq]
  split_ifs <;> simp_all

theorem descriptor_eq (paddr flags : BitVec 32) :
    descriptor paddr flags = (paddr &&& ~~~(SIZE_MMU_SECTION_REGION - 1)) |||
      descrBits (isXn flags) (isCached flags) (isUncached flags) := by
  simp only [descriptor, attributes_eq, descrBits, BitVec.or_assoc]
  rfl

theorem extractLsb'_descriptor (paddr flags : BitVec 32) (start len : Nat) :
    (descriptor paddr flags).extractLsb' start len =
      (paddr.extractLsb' start len &&& (~~~(SIZE_MMU_SECTION_REGION - 1)).extractLsb' start len) |||
        (descrBits (isXn flags) (isCached flags) (isUncached flags)).extractLsb' start len := by
  rw [descriptor_eq, BitVec.extractLsb'_or, BitVec.extractLsb'_and]

/-- A field below the address holds the added bits. -/
theorem descriptor_low (paddr flags : BitVec 32) {start len : Nat}
    (hmask : (~~~(SIZE_MMU_SECTION_REGION - 1)).extractLsb' start len = BitVec.ofNat len 0) :
    (descriptor paddr flags).extractLsb' start len =
      (descrBits (isXn flags) (isCached flags) (isUncached flags)).extractLsb' start len := by
  rw [extractLsb'_descriptor, hmask, BitVec.and_zero, BitVec.zero_or]

theorem descriptor_address (paddr flags : BitVec 32) :
    (descriptor paddr flags).toNat / 2 ^ 20 = paddr.toNat / 2 ^ 20 := by
  have hmask : (~~~(SIZE_MMU_SECTION_REGION - 1)).extractLsb' 20 12 = BitVec.allOnes 12 := by decide
  have hbits : ∀ xn cached uncached, (descrBits xn cached uncached).extractLsb' 20 12 = 0#12 := by
    decide
  have hfield : (descriptor paddr flags).extractLsb' 20 12 = paddr.extractLsb' 20 12 := by
    rw [extractLsb'_descriptor, hmask, hbits, BitVec.and_allOnes, BitVec.or_zero]
  have hnat := congrArg BitVec.toNat hfield
  rw [BitVec.extractLsb'_toNat, BitVec.extractLsb'_toNat, Nat.shiftRight_eq_div_pow,
    Nat.shiftRight_eq_div_pow] at hnat
  omega

theorem getLsbD_of_extract {x : BitVec 32} {start : Nat} {b : Bool}
    (h : x.extractLsb' start 1 = BitVec.ofBool b) : x.getLsbD start = b := by
  have hbit := congrArg (·.getLsbD 0) h
  simpa [BitVec.getLsbD_ofBool] using hbit

/-- What the processor reads of a section descriptor of the loader. -/
structure DescriptorFacts (paddr flags : BitVec 32) : Prop where
  type : (descriptor paddr flags).extractLsb' 0 2 = 2#2
  size : (descriptor paddr flags).getLsbD 18 = false
  domain : (descriptor paddr flags).extractLsb' 5 4 = 0#4
  tex : (descriptor paddr flags).extractLsb' 12 3 =
    texField (isXn flags) (isCached flags) (isUncached flags)
  cb : (descriptor paddr flags).extractLsb' 2 2 = cbField (isCached flags)
  apHigh : (descriptor paddr flags).extractLsb' 15 1 = 0#1
  apLow : (descriptor paddr flags).extractLsb' 10 2 = 3#2
  xn : (descriptor paddr flags).getLsbD 4 = isXn flags

theorem descriptorFacts (paddr flags : BitVec 32) : DescriptorFacts paddr flags := by
  have htype : ∀ xn cached uncached, (descrBits xn cached uncached).extractLsb' 0 2 = 2#2 := by
    decide
  have hsize : ∀ xn cached uncached,
      (descrBits xn cached uncached).extractLsb' 18 1 = BitVec.ofBool false := by decide
  have hdomain : ∀ xn cached uncached, (descrBits xn cached uncached).extractLsb' 5 4 = 0#4 := by
    decide
  have htex : ∀ xn cached uncached, (descrBits xn cached uncached).extractLsb' 12 3 =
      texField xn cached uncached := by decide
  have hcb : ∀ xn cached uncached, (descrBits xn cached uncached).extractLsb' 2 2 =
      cbField cached := by decide
  have hhigh : ∀ xn cached uncached, (descrBits xn cached uncached).extractLsb' 15 1 = 0#1 := by
    decide
  have hlow : ∀ xn cached uncached, (descrBits xn cached uncached).extractLsb' 10 2 = 3#2 := by
    decide
  have hxn : ∀ xn cached uncached,
      (descrBits xn cached uncached).extractLsb' 4 1 = BitVec.ofBool xn := by decide
  exact
    { type := (descriptor_low _ _ (by decide)).trans (htype _ _ _)
      size := getLsbD_of_extract ((descriptor_low _ _ (by decide)).trans (hsize _ _ _))
      domain := (descriptor_low _ _ (by decide)).trans (hdomain _ _ _)
      tex := (descriptor_low _ _ (by decide)).trans (htex _ _ _)
      cb := (descriptor_low _ _ (by decide)).trans (hcb _ _ _)
      apHigh := (descriptor_low _ _ (by decide)).trans (hhigh _ _ _)
      apLow := (descriptor_low _ _ (by decide)).trans (hlow _ _ _)
      xn := getLsbD_of_extract ((descriptor_low _ _ (by decide)).trans (hxn _ _ _)) }

theorem mmuInitRegs_dacr (T : Table) : (mmuInitRegs T).dacr = 1#32 := rfl

theorem mmuInitRegs_ttbcr (T : Table) : (mmuInitRegs T).ttbcr = 1#32 := rfl

/-- The section as the loader describes it: full access, in a domain whose accesses are
checked. -/
theorem walkEntry_descriptor (T : Table) (paddr flags : BitVec 32) (va : Nat) :
    walkEntry (mmuInitRegs T).dacr (descriptor paddr flags) va =
      .ok ⟨paddr.toNat / 2 ^ 20 * 2 ^ 20 + va % 2 ^ 20,
        texField (isXn flags) (isCached flags) (isUncached flags), cbField (isCached flags), 3#3,
        isXn flags⟩ := by
  have h := descriptorFacts paddr flags
  have hnot : ¬((descriptor paddr flags).extractLsb' 0 2 = 1#2 ∨
      (descriptor paddr flags).getLsbD 18 = true) := by
    rw [h.type, h.size]
    decide
  have hdacr : ¬(1#32 >>> (2 * (0#4).toNat)).extractLsb' 0 1 = 0#1 := by decide
  have hap : (0#1 ++ 3#2 : BitVec 3) = 3#3 := by decide
  rw [walkEntry, if_neg (by rw [h.type]; decide), if_neg hnot, sectionAccess, h.domain,
    mmuInitRegs_dacr, if_neg hdacr, descriptor_address, h.tex, h.cb, h.apHigh, h.apLow, h.xn, hap]

/-! What the table holds. -/

variable (T : Table)

def sectionOf (vaddr : BitVec 32) : Nat := vaddr.toNat / 2 ^ 20

theorem entry_vaddr (vaddr : BitVec 32) :
    T.entry (vaddr >>> 20).toNat = T.entry (sectionOf vaddr) := by
  rw [sectionOf, BitVec.toNat_ushiftRight, Nat.shiftRight_eq_div_pow]

theorem entry_inj {s s' : Nat} : T.entry s = T.entry s' ↔ s = s' := by
  simp only [Table.entry]
  omega

theorem latest_entry (calls : List MapCall) (s : Nat) :
    latest (fun c : MapCall => T.entry (c.vaddr >>> 20).toNat) (T.entry s) calls =
      latest (fun c => sectionOf c.vaddr) s calls := by
  refine latest_congr fun c _ => ?_
  rw [entry_vaddr, entry_inj]

theorem foldl_mmuMapAddr (mem : Mem) (calls : List MapCall) (s : Nat) :
    calls.foldl (mmuMapAddr T) mem (T.entry s) =
      ((latest (fun c : MapCall => sectionOf c.vaddr) s calls).map
        fun c => descriptor c.paddr c.flags).getD (mem (T.entry s)) := by
  have hfold := @foldl_update _ _ _ _ (fun c : MapCall => T.entry (c.vaddr >>> 20).toNat)
    (fun c => descriptor c.paddr c.flags) mem calls (T.entry s)
  rw [latest_entry] at hfold
  exact hfold

/-- The calls that `mmu_init` makes itself. -/
def initCalls : List MapCall :=
  (List.range 0x1000).map fun i => identity (i * 0x100000) (MMU_FLAG_UNCACHED ||| MMU_FLAG_XN)

theorem latest_initCalls {s : Nat} (hs : s < 0x1000) :
    latest (fun c : MapCall => sectionOf c.vaddr) s initCalls =
      some (identity (s * 0x100000) (MMU_FLAG_UNCACHED ||| MMU_FLAG_XN)) := by
  have hsection : ∀ i < 0x1000,
      sectionOf (identity (i * 0x100000) (MMU_FLAG_UNCACHED ||| MMU_FLAG_XN)).vaddr = i := by
    intro i hi
    rw [sectionOf, identity, BitVec.toNat_ofNat]
    omega
  refine latest_eq_some (List.mem_map.mpr ⟨s, List.mem_range.mpr hs, rfl⟩) (hsection s hs)
    fun c hc hkey => ?_
  obtain ⟨i, hi, rfl⟩ := List.mem_map.mp hc
  rw [hsection i (List.mem_range.mp hi)] at hkey
  rw [hkey]

/-- The call whose mapping a section has: the latest one, or the one of `mmu_init`. -/
def mapping (calls : List MapCall) (s : Nat) : MapCall :=
  (latest (fun c : MapCall => sectionOf c.vaddr) s calls).getD
    (identity (s * 0x100000) (MMU_FLAG_UNCACHED ||| MMU_FLAG_XN))

theorem mem_entry (mem : Mem) (calls : List MapCall) {s : Nat} (hs : s < 0x1000) :
    calls.foldl (mmuMapAddr T) (mmuInit T mem) (T.entry s) =
      descriptor (mapping calls s).paddr (mapping calls s).flags := by
  have hinit : mmuInit T mem = initCalls.foldl (mmuMapAddr T)
      ((List.range 0x1000).foldl (fun mem i => Function.update mem (T.entry i) 0) mem) := by
    rw [mmuInit, initCalls, List.foldl_map]
  rw [foldl_mmuMapAddr, hinit, foldl_mmuMapAddr, latest_initCalls hs, mapping]
  cases latest (fun c : MapCall => sectionOf c.vaddr) s calls with
  | none => rw [Option.map_none, Option.getD_none, Option.map_some, Option.getD_some, Option.getD_none]
  | some c => rw [Option.map_some, Option.getD_some, Option.getD_some]

/-- The two table registers lead to the same entry: the lower half of the table serves
the first of them. -/
theorem walk_entry (mem : Mem) {va : Nat} (hva : va < 2 ^ 32) :
    walk (mmuInitRegs T) mem va =
      walkEntry (mmuInitRegs T).dacr (mem (T.entry (va / 2 ^ 20))) va := by
  have hdvd := T.aligned
  have hfits := T.fits
  have hbits : (1#32 <<< 6) ||| (3#32 <<< 3) ||| 1#32 = 89#32 := by decide
  have hupper : (BitVec.ofNat 32 T.ttl1 ||| 89#32).toNat / 2 ^ 13 = T.ttl1 / 2 ^ 13 := by
    rw [BitVec.toNat_or, BitVec.toNat_ofNat, Nat.mod_eq_of_lt (by omega),
      ← Nat.shiftRight_eq_div_pow, ← Nat.shiftRight_eq_div_pow, Nat.shiftRight_or_distrib]
    exact Nat.or_zero _
  have hreg0 : (mmuInitRegs T).ttbr0 = BitVec.ofNat 32 T.ttl1 ||| 89#32 := by
    rw [← hbits]
    simp only [mmuInitRegs, mmuSetTTBR0, BitVec.or_assoc]
    rfl
  have hreg1 : (mmuInitRegs T).ttbr1 = BitVec.ofNat 32 T.ttl1 ||| 89#32 := hreg0
  have hn : ((mmuInitRegs T).ttbcr.extractLsb' 0 3).toNat = 1 := by
    rw [mmuInitRegs_ttbcr]
    decide
  have hbase0 : (BitVec.ofNat 32 T.ttl1 ||| 89#32).toNat / 2 ^ (14 - 1) * 2 ^ (14 - 1) = T.ttl1 := by
    have hshort : 14 - 1 = 13 := rfl
    rw [hshort, hupper]
    omega
  have hbase1 : (BitVec.ofNat 32 T.ttl1 ||| 89#32).toNat / 2 ^ 14 * 2 ^ 14 = T.ttl1 := by
    have hhalf := congrArg (· / 2) hupper
    simp only [Nat.div_div_eq_div_mul] at hhalf
    have hquot : (BitVec.ofNat 32 T.ttl1 ||| 89#32).toNat / 2 ^ 14 = T.ttl1 / 2 ^ 14 := hhalf
    rw [hquot]
    exact Nat.div_mul_cancel hdvd
  simp only [walk, hn, hreg0, hreg1, hbase0, hbase1]
  rw [if_neg (by omega), ← Table.entry, ite_self]

/-- What the loader says an address translates to. -/
def translated (calls : List MapCall) (va : Nat) : Except Fault Access :=
  if 2 ^ 32 ≤ va then .error .translation
  else
    let c := mapping calls (va / 2 ^ 20)
    .ok ⟨c.paddr.toNat / 2 ^ 20 * 2 ^ 20 + va % 2 ^ 20,
      texField (isXn c.flags) (isCached c.flags) (isUncached c.flags), cbField (isCached c.flags),
      3#3, isXn c.flags⟩

/-- The table holds what the calls say. -/
def Mapped (mem : Mem) (calls : List MapCall) : Prop :=
  ∀ s < 0x1000, mem (T.entry s) = descriptor (mapping calls s).paddr (mapping calls s).flags

theorem mapped_calls (mem : Mem) (calls : List MapCall) :
    Mapped T (calls.foldl (mmuMapAddr T) (mmuInit T mem)) calls := fun _ hs => mem_entry T mem calls hs

variable {T} in
theorem Mapped.walk_eq {mem : Mem} {calls : List MapCall} (h : Mapped T mem calls) (va : Nat) :
    walk (mmuInitRegs T) mem va = translated calls va := by
  by_cases hva : 2 ^ 32 ≤ va
  · simp only [walk, translated]
    rw [if_pos hva, if_pos hva]
  · rw [translated, if_neg hva, walk_entry T _ (by omega), h _ (by omega), walkEntry_descriptor]

/-- After `mmu_init` and any calls of `mmu_mapAddr` every address is translated as the
latest call for its section says, and to itself where there was none. -/
theorem walk_sections (T : Table) (mem : Mem) (calls : List MapCall) (va : Nat) :
    walk (mmuInitRegs T) (calls.foldl (mmuMapAddr T) (mmuInit T mem)) va = translated calls va :=
  (mapped_calls T mem calls).walk_eq va

end Plo.Hal.Armv7a
