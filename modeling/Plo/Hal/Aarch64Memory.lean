import Plo.Base.Sections
import Plo.Hal.Aarch64MmuRuns

/-!
The memory maps that the AArch64 boards set up at start. Every range is mapped to
itself in whole sections, so what is left to say of an address is how it is cached and
whether it may be executed.
-/
namespace Plo.Hal.Aarch64

def MMU_FLAG_CACHED : BitVec 32 := 0x0

/-- The mapping of an address to itself. -/
def identity (a : Nat) (flags : BitVec 32) : MapCall := ⟨BitVec.ofNat 64 a, BitVec.ofNat 64 a, flags⟩

/-- A loop of `hal_memoryInit` over a range. -/
def mapRegion (T : Tables) (mem : Mem) (r : MapRange (BitVec 32)) : Mem :=
  (r.addrs 21).foldl (fun mem a => mmuMapAddr T mem (identity a r.flags)) mem

/-- The ranges of a ZynqMP board. -/
structure ZynqmpBoard where
  ADDR_OCRAM : Nat
  SIZE_OCRAM : Nat
  ADDR_DDR : Nat
  SIZE_DDR : Nat
  ADDR_BITSTREAM : Nat
  SIZE_BITSTREAM : Nat
  ADDR_UNCACHED_BUFF_DDR : Nat
  SIZE_UNCACHED_BUFF_DDR : Nat

/-- The ranges in the order of the loops. -/
def ZynqmpBoard.regions (b : ZynqmpBoard) : List (MapRange (BitVec 32)) :=
  [⟨b.ADDR_OCRAM, b.SIZE_OCRAM, MMU_FLAG_CACHED⟩,
    ⟨b.ADDR_DDR, b.SIZE_DDR, MMU_FLAG_CACHED⟩,
    ⟨b.ADDR_BITSTREAM, b.SIZE_BITSTREAM, MMU_FLAG_UNCACHED ||| MMU_FLAG_XN⟩,
    ⟨b.ADDR_UNCACHED_BUFF_DDR, b.SIZE_UNCACHED_BUFF_DDR, MMU_FLAG_UNCACHED ||| MMU_FLAG_XN⟩]

/-- `hal_memoryInit` of ZynqMP. -/
def zynqmpMemoryInit (T : Tables) (b : ZynqmpBoard) (mem : Mem) : Mem :=
  b.regions.foldl (mapRegion T) (mmuInit T mem)

/-- The ranges of the generic board. -/
structure GenericBoard where
  ADDR_DDR : Nat
  SIZE_DDR : Nat
  ADDR_GPU_RSV : Nat
  SIZE_GPU_RSV : Nat

def GenericBoard.ddr (b : GenericBoard) : MapRange (BitVec 32) :=
  ⟨b.ADDR_DDR, b.SIZE_DDR, MMU_FLAG_CACHED⟩

/-- The address is in the range left to the graphics processor. -/
def GenericBoard.Gpu (b : GenericBoard) (addr : Nat) : Prop :=
  addr ≥ b.ADDR_GPU_RSV ∧ addr < b.ADDR_GPU_RSV + b.SIZE_GPU_RSV

instance (b : GenericBoard) (addr : Nat) : Decidable (b.Gpu addr) :=
  inferInstanceAs (Decidable (_ ∧ _))

/-- `hal_memoryInit` of the generic board. -/
def genericMemoryInit (T : Tables) (b : GenericBoard) (mem : Mem) : Mem :=
  (b.ddr.addrs 21).foldl
    (fun mem addr =>
      if b.Gpu addr then mem else mmuMapAddr T mem (identity addr MMU_FLAG_CACHED))
    (mmuInit T mem)

/-- What an address is mapped to that is mapped to itself with the flags. -/
def identityAccess (el : El) (flags : BitVec 32) (va : Nat) : Access :=
  ⟨va, attrByte (isDevice flags) (isUncached flags), !(decide (el = .el1) && isXn flags)⟩

variable {T : Tables}

theorem le_regimeBits (el : El) (id : BitVec 64) : 32 ≤ regimeBits el id := by
  rw [regimeBits]
  split
  · exact le_rfl
  · rw [paBits]
    split <;> decide

/-- A call that maps the section of the address to itself, or none. -/
theorem translated_identity (el : El) (id : BitVec 64) {calls : List MapCall} {va : Nat}
    {flags : BitVec 32} (hva : va < 2 ^ 32)
    (hpaddr : (mapping calls (va / 2 ^ 21)).paddr.toNat / 2 ^ 21 = va / 2 ^ 21)
    (hflags : (mapping calls (va / 2 ^ 21)).flags = flags) :
    translated el id calls va = .ok (identityAccess el flags va) := by
  have hpa : va / 2 ^ 21 * 2 ^ 21 + va % 2 ^ 21 = va := by omega
  have hsize : 2 ^ 32 ≤ 2 ^ regimeBits el id := Nat.pow_le_pow_right (by decide) (le_regimeBits el id)
  simp only [translated, hpaddr, hflags, hpa]
  rw [if_neg (by omega), if_neg (by omega)]
  rfl

theorem sectionOf_identity {a : Nat} (ha : a < 2 ^ 32) (flags : BitVec 32) :
    sectionOf (identity a flags).vaddr = a / 2 ^ 21 := by
  rw [sectionOf, identity, BitVec.toNat_ofNat]
  omega

theorem identity_paddr {a : Nat} (ha : a < 2 ^ 32) (flags : BitVec 32) :
    (identity a flags).paddr.toNat = a := by
  rw [identity, BitVec.toNat_ofNat]
  omega

/-- The calls of the loops over some ranges. -/
def regionCalls (regions : List (MapRange (BitVec 32))) : List MapCall :=
  (regionWrites 21 regions).map fun w => identity w.1 w.2

theorem foldl_mapRegion (regions : List (MapRange (BitVec 32))) (mem : Mem) :
    regions.foldl (mapRegion T) mem = (regionCalls regions).foldl (mmuMapAddr T) mem := by
  induction regions generalizing mem with
  | nil => rfl
  | cons r regions ih =>
      simp only [List.foldl_cons, ih, regionCalls, regionWrites_cons, List.map_append,
        List.foldl_append, List.foldl_map, mapRegion]

/-- The mapping that the loops over some ranges leave an address. -/
theorem mapping_regionCalls {regions : List (MapRange (BitVec 32))}
    (hfit : ∀ r ∈ regions, r.base + r.size ≤ 2 ^ 32) {va : Nat} (hva : va < 2 ^ 32) :
    (mapping (regionCalls regions) (va / 2 ^ 21)).paddr.toNat / 2 ^ 21 = va / 2 ^ 21 ∧
      (mapping (regionCalls regions) (va / 2 ^ 21)).flags =
        ((lastRegion 21 regions (va / 2 ^ 21)).map (·.flags)).getD
          (MMU_FLAG_XN ||| MMU_FLAG_DEVICE) := by
  have hlatest : latest (fun c : MapCall => sectionOf c.vaddr) (va / 2 ^ 21) (regionCalls regions) =
      (lastRegion 21 regions (va / 2 ^ 21)).map fun r => identity (r.visit 21 (va / 2 ^ 21)) r.flags :=
    @latest_regionCalls _ 21 _ (fun c : MapCall => sectionOf c.vaddr) identity _
      (fun _ ha flags => sectionOf_identity ha flags) regions hfit _
  rw [mapping, hlatest]
  cases hlast : lastRegion 21 regions (va / 2 ^ 21) with
  | none =>
      refine ⟨?_, rfl⟩
      change (initAddr (va / 2 ^ 21)).toNat / 2 ^ 21 = va / 2 ^ 21
      rw [initAddr, BitVec.toNat_ofNat]
      omega
  | some r =>
      obtain ⟨hr, hcovers⟩ := lastRegion_covers hlast
      have hlt := MapRange.visit_lt (hfit r hr) hcovers
      refine ⟨?_, rfl⟩
      change (identity (r.visit 21 (va / 2 ^ 21)) r.flags).paddr.toNat / 2 ^ 21 = va / 2 ^ 21
      rw [identity_paddr hlt, MapRange.visit_div r hcovers.1]

/-- On ZynqMP every address of the first 4 GiB is mapped to itself as the last range that
touches its section says, and as device memory outside the ranges. -/
theorem walk_zynqmp (T : Tables) (el : El) (id_aa64mmfr0_el1 : BitVec 64) (b : ZynqmpBoard)
    (mem : Mem) (hfit : ∀ r ∈ b.regions, r.base + r.size ≤ 2 ^ 32) {va : Nat} (hva : va < 2 ^ 32) :
    walk el (mmuInitRegs T el id_aa64mmfr0_el1) (zynqmpMemoryInit T b mem) va =
      .ok (identityAccess el (((lastRegion 21 b.regions (va / 2 ^ 21)).map (·.flags)).getD
        (MMU_FLAG_XN ||| MMU_FLAG_DEVICE)) va) := by
  obtain ⟨hpaddr, hflags⟩ := mapping_regionCalls hfit hva
  rw [zynqmpMemoryInit, foldl_mapRegion, (mapped_calls T mem _).walk_eq el _ ?_ va]
  · exact translated_identity el _ hva hpaddr hflags
  · intro c hc
    obtain ⟨w, hw, rfl⟩ := List.mem_map.mp hc
    have hlt := regionWrites_lt hfit hw
    rw [identity_paddr hlt]
    omega

theorem walk_zynqmp_bitstream :
    walk .el3 (mmuInitRegs sampleTables .el3 2)
      (zynqmpMemoryInit sampleTables
        ⟨0xfffc0000, 0x40000, 0, 0x20000000, 0x1f000000, 0x1000000, 0x1ec00000, 0x400000⟩
        fun _ => 0) 0x1f654321 = .ok ⟨0x1f654321, 0x44, true⟩ := by
  refine (walk_zynqmp sampleTables .el3 2 _ (fun _ => 0) ?_ (by decide)).trans (by decide)
  decide

/-- The calls of the generic board. -/
def GenericBoard.calls (b : GenericBoard) : List MapCall :=
  ((b.ddr.addrs 21).filter fun addr => ¬b.Gpu addr).map fun addr => identity addr MMU_FLAG_CACHED

theorem genericMemoryInit_eq (b : GenericBoard) (mem : Mem) :
    genericMemoryInit T b mem = b.calls.foldl (mmuMapAddr T) (mmuInit T mem) := by
  rw [genericMemoryInit, GenericBoard.calls, List.foldl_map]
  generalize mmuInit T mem = mem
  induction b.ddr.addrs 21 generalizing mem with
  | nil => rfl
  | cons addr addrs ih =>
      by_cases hgpu : b.Gpu addr
      · rw [List.foldl_cons, if_pos hgpu, ih, List.filter_cons_of_neg (by simpa using hgpu)]
      · rw [List.foldl_cons, if_neg hgpu, ih, List.filter_cons_of_pos (by simpa using hgpu),
          List.foldl_cons]

/-- The address of the loop over DDR in a section, if the loop maps it. -/
def GenericBoard.Cached (b : GenericBoard) (s : Nat) : Prop :=
  b.ddr.Covers 21 s ∧ ¬b.Gpu (b.ddr.visit 21 s)

instance (b : GenericBoard) (s : Nat) : Decidable (b.Cached s) :=
  inferInstanceAs (Decidable (_ ∧ _))

theorem latest_generic (b : GenericBoard) (hfit : b.ADDR_DDR + b.SIZE_DDR ≤ 2 ^ 32) (s : Nat) :
    latest (fun c : MapCall => sectionOf c.vaddr) s b.calls =
      if b.Cached s then some (identity (b.ddr.visit 21 s) MMU_FLAG_CACHED) else none := by
  have hvisit : ∀ addr ∈ b.ddr.addrs 21,
      addr < 2 ^ 32 ∧ b.ddr.Covers 21 (addr / 2 ^ 21) ∧ b.ddr.visit 21 (addr / 2 ^ 21) = addr := by
    intro addr haddr
    obtain ⟨k, hk, rfl⟩ := List.mem_map.mp haddr
    have hk := (MapRange.lt_rounds_iff b.ddr k).mp (List.mem_range.mp hk)
    have hlt : b.ddr.base + k * 2 ^ 21 < 2 ^ 32 := by
      have hbase : b.ddr.base = b.ADDR_DDR := rfl
      have hsize : b.ddr.size = b.SIZE_DDR := rfl
      omega
    rw [MapRange.step_div]
    refine ⟨hlt, ⟨Nat.le_add_right _ _, ?_⟩, ?_⟩
    · rw [Nat.add_sub_cancel_left]
      exact hk
    · rw [MapRange.visit, Nat.add_sub_cancel_left]
  have hsection : ∀ addr ∈ b.ddr.addrs 21,
      sectionOf (identity addr MMU_FLAG_CACHED).vaddr = addr / 2 ^ 21 := fun addr haddr =>
    sectionOf_identity (hvisit addr haddr).1 _
  split
  · next h =>
    have hmem : b.ddr.visit 21 s ∈ b.ddr.addrs 21 := List.mem_map.mpr
      ⟨_, List.mem_range.mpr ((MapRange.lt_rounds_iff b.ddr _).mpr h.1.2), rfl⟩
    refine latest_eq_some ?_ ?_ fun c hc hkey => ?_
    · exact List.mem_map.mpr ⟨_, List.mem_filter.mpr ⟨hmem, by simpa using h.2⟩, rfl⟩
    · rw [hsection _ hmem, MapRange.visit_div _ h.1.1]
    · obtain ⟨addr, haddr, rfl⟩ := List.mem_map.mp hc
      have haddr := (List.mem_filter.mp haddr).1
      rw [hsection addr haddr] at hkey
      rw [← hkey, (hvisit addr haddr).2.2]
  · next h =>
    refine latest_eq_none_iff.mpr fun c hc hkey => h ?_
    obtain ⟨addr, haddr, rfl⟩ := List.mem_map.mp hc
    obtain ⟨haddr, hgpu⟩ := List.mem_filter.mp haddr
    rw [hsection addr haddr] at hkey
    obtain ⟨-, hcovers, hat⟩ := hvisit addr haddr
    rw [hkey] at hcovers hat
    rw [GenericBoard.Cached, hat]
    exact ⟨hcovers, by simpa using hgpu⟩

/-- On the generic board every address of the first 4 GiB is mapped to itself: as cached
memory where the loop has mapped its section, as device memory elsewhere, the range of
the graphics processor included. -/
theorem walk_generic (T : Tables) (el : El) (id_aa64mmfr0_el1 : BitVec 64) (b : GenericBoard)
    (mem : Mem) (hfit : b.ADDR_DDR + b.SIZE_DDR ≤ 2 ^ 32) {va : Nat} (hva : va < 2 ^ 32) :
    walk el (mmuInitRegs T el id_aa64mmfr0_el1) (genericMemoryInit T b mem) va =
      .ok (identityAccess el (if b.Cached (va / 2 ^ 21) then MMU_FLAG_CACHED
        else MMU_FLAG_XN ||| MMU_FLAG_DEVICE) va) := by
  have hlt : ∀ s, b.Cached s → b.ddr.visit 21 s < 2 ^ 32 := fun s hs =>
    MapRange.visit_lt (r := b.ddr) hfit hs.1
  rw [genericMemoryInit_eq, (mapped_calls T mem _).walk_eq el _ ?_ va]
  · have hlatest := latest_generic b hfit (va / 2 ^ 21)
    by_cases hcached : b.Cached (va / 2 ^ 21)
    · rw [if_pos hcached] at hlatest ⊢
      refine translated_identity el _ hva ?_ ?_
      · rw [mapping, hlatest, Option.getD_some, identity_paddr (hlt _ hcached),
          MapRange.visit_div _ hcached.1.1]
      · rw [mapping, hlatest, Option.getD_some, identity]
    · rw [if_neg hcached] at hlatest ⊢
      refine translated_identity el _ hva ?_ ?_
      · rw [mapping, hlatest, Option.getD_none, initAddr, BitVec.toNat_ofNat]
        omega
      · rw [mapping, hlatest, Option.getD_none]
  · intro c hc
    obtain ⟨addr, haddr, rfl⟩ := List.mem_map.mp hc
    have hw : (addr, MMU_FLAG_CACHED) ∈ regionWrites 21 [b.ddr] := by
      rw [regionWrites_cons]
      exact List.mem_append_left _ (List.mem_map.mpr ⟨addr, (List.mem_filter.mp haddr).1, rfl⟩)
    have hfits : ∀ r ∈ [b.ddr], r.base + r.size ≤ 2 ^ 32 := by
      intro r hr
      rw [List.mem_singleton.mp hr]
      exact hfit
    have haddr := regionWrites_lt hfits hw
    rw [identity_paddr haddr]
    exact haddr.trans (by decide)

theorem walk_generic_gpu :
    walk .el1 (mmuInitRegs sampleTables .el1 4)
      (genericMemoryInit sampleTables ⟨0, 0xfc000000, 0x3b400000, 0x4c00000⟩ fun _ => 0)
      0x3b400010 = .ok ⟨0x3b400010, 0x04, false⟩ :=
  (walk_generic sampleTables .el1 4 _ (fun _ => 0) (by decide) (by decide)).trans (by decide)

end Plo.Hal.Aarch64
