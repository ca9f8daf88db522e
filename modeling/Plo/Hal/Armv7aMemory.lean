import Plo.Hal.Armv7aMmu

/-!
The memory maps that the ARMv7-A boards set up at start. The loops go through their
ranges one after another, so an address that lies in several is mapped as the last
one says.
-/
namespace Plo.Hal.Armv7a

/-- A loop of `hal_memoryInit` over a range. -/
def mapRegion (T : Table) (mem : Mem) (r : MapRange (BitVec 32)) : Mem :=
  (r.addrs 20).foldl (fun mem a => mmuMapAddr T mem (identity a r.flags)) mem

/-- The ranges of a Zynq-7000 board. -/
structure Zynq7000Board where
  ADDR_OCRAM_LOW : Nat
  SIZE_OCRAM_LOW : Nat
  ADDR_OCRAM_HIGH : Nat
  SIZE_OCRAM_HIGH : Nat
  ADDR_DDR : Nat
  SIZE_DDR : Nat
  ADDR_BITSTREAM : Nat
  SIZE_BITSTREAM : Nat
  ADDR_UNCACHED_BUFF_DDR : Nat
  SIZE_UNCACHED_BUFF_DDR : Nat

/-- The ranges in the order of the loops; the first loop runs up to the size itself. -/
def Zynq7000Board.regions (b : Zynq7000Board) : List (MapRange (BitVec 32)) :=
  [⟨b.ADDR_OCRAM_LOW, b.SIZE_OCRAM_LOW + 1, MMU_FLAG_CACHED⟩,
    ⟨b.ADDR_OCRAM_HIGH / 0x100000 * 0x100000, b.SIZE_OCRAM_HIGH, MMU_FLAG_CACHED⟩,
    ⟨b.ADDR_DDR, b.SIZE_DDR, MMU_FLAG_CACHED⟩,
    ⟨b.ADDR_BITSTREAM, b.SIZE_BITSTREAM, MMU_FLAG_UNCACHED ||| MMU_FLAG_XN⟩,
    ⟨b.ADDR_UNCACHED_BUFF_DDR, b.SIZE_UNCACHED_BUFF_DDR, MMU_FLAG_UNCACHED ||| MMU_FLAG_XN⟩]

/-- The ranges of an i.MX 6ULL board. -/
structure Imx6ullBoard where
  ADDR_OCRAM_LOW : Nat
  SIZE_OCRAM_LOW : Nat
  ADDR_OCRAM_HIGH : Nat
  SIZE_OCRAM_HIGH : Nat
  ADDR_DDR : Nat
  SIZE_DDR : Nat
  ADDR_UNCACHED_BUFF_DDR : Nat
  SIZE_UNCACHED_BUFF_DDR : Nat

def Imx6ullBoard.regions (b : Imx6ullBoard) : List (MapRange (BitVec 32)) :=
  [⟨b.ADDR_OCRAM_LOW, b.SIZE_OCRAM_LOW, MMU_FLAG_CACHED⟩,
    ⟨b.ADDR_OCRAM_HIGH, b.SIZE_OCRAM_HIGH, MMU_FLAG_CACHED⟩,
    ⟨b.ADDR_DDR, b.SIZE_DDR, MMU_FLAG_CACHED⟩,
    ⟨b.ADDR_UNCACHED_BUFF_DDR, b.SIZE_UNCACHED_BUFF_DDR, MMU_FLAG_UNCACHED ||| MMU_FLAG_XN⟩]

/-- `hal_memoryInit` of either board. -/
def memoryInit (T : Table) (regions : List (MapRange (BitVec 32))) (mem : Mem) : Mem :=
  regions.foldl (mapRegion T) (mmuInit T mem)

def zynq7000MemoryInit (T : Table) (b : Zynq7000Board) (mem : Mem) : Mem :=
  memoryInit T b.regions mem

def imx6ullMemoryInit (T : Table) (b : Imx6ullBoard) (mem : Mem) : Mem :=
  memoryInit T b.regions mem

/-- What an address is mapped to that is mapped to itself with the flags. -/
def identityAccess (flags : BitVec 32) (va : Nat) : Access :=
  ⟨va, texField (isXn flags) (isCached flags) (isUncached flags), cbField (isCached flags), 3#3,
    isXn flags⟩

variable {T : Table}

/-- The calls of the loops over some ranges. -/
def regionCalls (regions : List (MapRange (BitVec 32))) : List MapCall :=
  (regionWrites 20 regions).map fun w => identity w.1 w.2

theorem foldl_mapRegion (regions : List (MapRange (BitVec 32))) (mem : Mem) :
    regions.foldl (mapRegion T) mem = (regionCalls regions).foldl (mmuMapAddr T) mem := by
  induction regions generalizing mem with
  | nil => rfl
  | cons r regions ih =>
      simp only [List.foldl_cons, ih, regionCalls, regionWrites_cons, List.map_append,
        List.foldl_append, List.foldl_map, mapRegion]

theorem identity_toNat {a : Nat} (ha : a < 2 ^ 32) (flags : BitVec 32) :
    (identity a flags).paddr.toNat = a ∧ (identity a flags).vaddr.toNat = a := by
  rw [identity, BitVec.toNat_ofNat]
  omega

theorem sectionOf_identity {a : Nat} (ha : a < 2 ^ 32) (flags : BitVec 32) :
    sectionOf (identity a flags).vaddr = a / 2 ^ 20 := by
  rw [sectionOf, (identity_toNat ha flags).2]

/-- The mapping that the loops over some ranges leave an address. -/
theorem mapping_regionCalls {regions : List (MapRange (BitVec 32))}
    (hfit : ∀ r ∈ regions, r.base + r.size ≤ 2 ^ 32) {va : Nat} (hva : va < 2 ^ 32) :
    (mapping (regionCalls regions) (va / 2 ^ 20)).paddr.toNat / 2 ^ 20 = va / 2 ^ 20 ∧
      (mapping (regionCalls regions) (va / 2 ^ 20)).flags =
        ((lastRegion 20 regions (va / 2 ^ 20)).map (·.flags)).getD
          (MMU_FLAG_UNCACHED ||| MMU_FLAG_XN) := by
  have hlatest : latest (fun c : MapCall => sectionOf c.vaddr) (va / 2 ^ 20) (regionCalls regions) =
      (lastRegion 20 regions (va / 2 ^ 20)).map fun r => identity (r.visit 20 (va / 2 ^ 20)) r.flags :=
    @latest_regionCalls _ 20 _ (fun c : MapCall => sectionOf c.vaddr) identity _
      (fun _ ha flags => sectionOf_identity ha flags) regions hfit _
  rw [mapping, hlatest]
  cases hlast : lastRegion 20 regions (va / 2 ^ 20) with
  | none =>
      have hlt : va / 2 ^ 20 * 0x100000 < 2 ^ 32 := by omega
      rw [Option.map_none, Option.getD_none, (identity_toNat hlt _).1]
      exact ⟨by omega, rfl⟩
  | some r =>
      obtain ⟨hr, hcovers⟩ := lastRegion_covers hlast
      rw [Option.map_some, Option.getD_some, (identity_toNat (MapRange.visit_lt (hfit r hr) hcovers) _).1,
        MapRange.visit_div r hcovers.1]
      exact ⟨rfl, rfl⟩

/-- Every address is mapped to itself, as the last range that touches its section says,
and as execute-never memory outside the ranges. -/
theorem walk_memoryInit (T : Table) (regions : List (MapRange (BitVec 32))) (mem : Mem)
    (hfit : ∀ r ∈ regions, r.base + r.size ≤ 2 ^ 32) {va : Nat} (hva : va < 2 ^ 32) :
    walk (mmuInitRegs T) (memoryInit T regions mem) va =
      .ok (identityAccess (((lastRegion 20 regions (va / 2 ^ 20)).map (·.flags)).getD
        (MMU_FLAG_UNCACHED ||| MMU_FLAG_XN)) va) := by
  obtain ⟨hpaddr, hflags⟩ := mapping_regionCalls hfit hva
  have hpa : va / 2 ^ 20 * 2 ^ 20 + va % 2 ^ 20 = va := by omega
  rw [memoryInit, foldl_mapRegion, (mapped_calls T mem _).walk_eq va, translated, if_neg (by omega)]
  simp only [hpaddr, hflags, hpa, identityAccess]

theorem walk_zynq7000 (T : Table) (b : Zynq7000Board) (mem : Mem)
    (hfit : ∀ r ∈ b.regions, r.base + r.size ≤ 2 ^ 32) {va : Nat} (hva : va < 2 ^ 32) :
    walk (mmuInitRegs T) (zynq7000MemoryInit T b mem) va =
      .ok (identityAccess (((lastRegion 20 b.regions (va / 2 ^ 20)).map (·.flags)).getD
        (MMU_FLAG_UNCACHED ||| MMU_FLAG_XN)) va) :=
  walk_memoryInit T b.regions mem hfit hva

theorem walk_imx6ull (T : Table) (b : Imx6ullBoard) (mem : Mem)
    (hfit : ∀ r ∈ b.regions, r.base + r.size ≤ 2 ^ 32) {va : Nat} (hva : va < 2 ^ 32) :
    walk (mmuInitRegs T) (imx6ullMemoryInit T b mem) va =
      .ok (identityAccess (((lastRegion 20 b.regions (va / 2 ^ 20)).map (·.flags)).getD
        (MMU_FLAG_UNCACHED ||| MMU_FLAG_XN)) va) :=
  walk_memoryInit T b.regions mem hfit hva

def sampleTable : Table where
  ttl1 := 0x17f34000
  aligned := by decide
  fits := by decide

theorem walk_zynq7000_ddr :
    walk (mmuInitRegs sampleTable)
      (zynq7000MemoryInit sampleTable ⟨0, 0x30000, 0xffff0000, 0xfe00, 0x100000, 0x1ff00000,
        0x1f000000, 0x1000000, 0x1ff00000, 0x100000⟩ fun _ => 0) 0x100042 =
      .ok ⟨0x100042, 6, 3, 3, false⟩ := by
  refine (walk_zynq7000 sampleTable _ (fun _ => 0) ?_ (by decide)).trans (by decide)
  decide

end Plo.Hal.Armv7a
