import Plo.Base.Run
import Plo.Base.Window
import Plo.Devices.SectorCache

/-!
What a sector buffer stands for: the chip with the buffered sector patched by the
buffer. Writes are writes into that content and erases are erases of it, whichever
way they take, and writing the buffer back makes the chip equal to it.
-/
namespace Plo.Devices
variable {geo : SectorGeometry}

/-- The content the chip and the buffer stand for together. -/
def SectorCache.content (geo : SectorGeometry) (dev : SectorCache) : Nat → UInt8 :=
  if dev.sectorBufAddr = noSector then dev.chip
  else patch dev.chip dev.sectorBufAddr geo.sectorSz dev.sectorBuf

/-- The buffer is empty or holds a sector of the chip, its content is `mem`, and
without the flag the chip alone is `mem`. -/
structure SectorCache.Holds (geo : SectorGeometry) (dev : SectorCache) (mem : Nat → UInt8) :
    Prop where
  addr : dev.sectorBufAddr = noSector ∨
    (geo.sectorSz ∣ dev.sectorBufAddr ∧ dev.sectorBufAddr < geo.totalSz)
  content : dev.content geo = mem
  clean : dev.sectorBufDirty = false → dev.chip = mem

/-- On the bytes of the buffered sector from `lo` to `hi` the chip holds what the
buffer holds. -/
def SectorCache.AgreesOn (geo : SectorGeometry) (dev : SectorCache) (lo hi : Nat) : Prop :=
  ∀ a, lo ≤ a → a < hi → dev.sectorBufAddr ≤ a → a < dev.sectorBufAddr + geo.sectorSz →
    dev.chip a = dev.sectorBuf (a - dev.sectorBufAddr)

/-- The operations in which the drivers differ. -/
structure SectorOps (geo : SectorGeometry) where
  directSectorWrite : (Nat → UInt8) → Nat → (Nat → UInt8) → (Nat → UInt8) × Int
  sync : SectorCache → SectorCache × Int
  /-- A whole sector is stored on the chip. -/
  directSectorWrite_spec : ∀ chip offs src, geo.sectorSz ∣ offs →
    ∃ res, directSectorWrite chip offs src = (patch chip offs geo.sectorSz src, res) ∧ 0 ≤ res
  /-- Writing the buffer back puts the content on the chip. -/
  sync_spec : ∀ dev mem, dev.Holds geo mem →
    ∃ dirty res, sync dev = ({ dev with chip := mem, sectorBufDirty := dirty }, res) ∧ 0 ≤ res
  eraseChip : SectorCache → SectorCache × Int
  eraseChip_spec : ∀ dev mem, dev.Holds geo mem →
    (eraseChip dev).1.Holds geo (Nor.erase mem 0 geo.totalSz)

section Geometry
variable (geo)

theorem SectorGeometry.ne_noSector {addr : Nat} (h : addr < geo.totalSz) : addr ≠ noSector := by
  have htop := geo.totalSz_lt
  simp only [noSector]
  omega

theorem SectorGeometry.sectors_apart {addr addr' : Nat} (h : geo.sectorSz ∣ addr)
    (h' : geo.sectorSz ∣ addr') (hne : addr ≠ addr') :
    addr + geo.sectorSz ≤ addr' ∨ addr' + geo.sectorSz ≤ addr := by
  cases Nat.lt_or_gt_of_ne hne with
  | inl hlt => exact Or.inl (add_le_of_dvd_of_lt h h' hlt)
  | inr hgt => exact Or.inr (add_le_of_dvd_of_lt h' h hgt)

/-- Where the sector of an offset starts and how far into it the offset is. -/
theorem SectorGeometry.sector_split {offs : Nat} (h : offs < geo.totalSz) :
    geo.sectorSz ∣ geo.getSectorAddress offs ∧ geo.getSectorAddress offs < geo.totalSz ∧
      geo.getSectorAddress offs + geo.sectorOfs offs = offs := by
  have hword : offs < 2 ^ 32 := Nat.lt_trans h geo.totalSz_lt
  have hdiv := Nat.div_add_mod' offs geo.sectorSz
  rw [geo.getSectorAddress_eq hword, geo.sectorOfs_eq hword]
  exact ⟨Nat.dvd_mul_left _ _, by omega, hdiv⟩

end Geometry

namespace SectorCache.Holds
variable {dev : SectorCache} {mem : Nat → UInt8}

theorem of_none {dirty : Bool} {buf : Nat → UInt8} :
    SectorCache.Holds geo ⟨mem, noSector, dirty, buf⟩ mem :=
  ⟨Or.inl rfl, if_pos rfl, fun _ => rfl⟩

theorem chip_of_none (h : dev.Holds geo mem) (hnone : dev.sectorBufAddr = noSector) :
    dev.chip = mem := by
  rw [← h.content, SectorCache.content, if_pos hnone]

theorem chip_of_clean (h : dev.Holds geo mem)
    (hclean : dev.sectorBufAddr = noSector ∨ dev.sectorBufDirty = false) : dev.chip = mem := by
  cases hclean with
  | inl hnone => exact h.chip_of_none hnone
  | inr hflag => exact h.clean hflag

theorem dvd_of_some (h : dev.Holds geo mem) (hsome : dev.sectorBufAddr ≠ noSector) :
    geo.sectorSz ∣ dev.sectorBufAddr := by
  cases h.addr with
  | inl hnone => exact absurd hnone hsome
  | inr hbuf => exact hbuf.1

theorem patched (h : dev.Holds geo mem) (hsome : dev.sectorBufAddr ≠ noSector) :
    patch dev.chip dev.sectorBufAddr geo.sectorSz dev.sectorBuf = mem := by
  rw [← h.content, SectorCache.content, if_neg hsome]

theorem sector_ends (h : dev.Holds geo mem) (hsome : dev.sectorBufAddr ≠ noSector) :
    dev.sectorBufAddr + geo.sectorSz ≤ geo.totalSz := by
  cases h.addr with
  | inl hnone => exact absurd hnone hsome
  | inr hbuf => exact add_le_of_dvd_of_lt hbuf.1 geo.sectorSz_dvd hbuf.2

/-- A byte is in the buffer or on the chip. -/
theorem content_apply (h : dev.Holds geo mem) {a : Nat} (ha : a < geo.totalSz) :
    mem a = if dev.sectorBufAddr ≤ a ∧ a < dev.sectorBufAddr + geo.sectorSz then
      dev.sectorBuf (a - dev.sectorBufAddr) else dev.chip a := by
  by_cases hnone : dev.sectorBufAddr = noSector
  · have htop := geo.totalSz_lt
    have hout : ¬(dev.sectorBufAddr ≤ a ∧ a < dev.sectorBufAddr + geo.sectorSz) := by
      rw [hnone, noSector]
      omega
    rw [if_neg hout, h.chip_of_none hnone]
  · rw [← h.patched hnone]
    rfl

/-- Reading the chip gives the content where the buffer has nothing newer. -/
theorem slice_chip_iff (h : dev.Holds geo mem) {offs len : Nat} (hfits : offs + len ≤ geo.totalSz) :
    slice dev.chip offs len = slice mem offs len ↔ dev.AgreesOn geo offs (offs + len) := by
  rw [slice_eq_iff]
  constructor
  · intro heq a hlo hhi hbuf hend
    have hbyte := heq (a - offs) (by omega)
    rw [Nat.add_sub_cancel' hlo, h.content_apply (by omega), if_pos ⟨hbuf, hend⟩] at hbyte
    exact hbyte
  · intro hagree k hk
    rw [h.content_apply (by omega)]
    split
    · next hin => exact hagree _ (by omega) (by omega) hin.1 hin.2
    · rfl

/-- Reading the buffer gives the content inside the buffered sector. -/
theorem slice_buffer (h : dev.Holds geo mem) (hsome : dev.sectorBufAddr ≠ noSector)
    {offs len : Nat} (hlo : dev.sectorBufAddr ≤ offs)
    (hhi : offs + len ≤ dev.sectorBufAddr + geo.sectorSz) :
    slice dev.sectorBuf (offs - dev.sectorBufAddr) len = slice mem offs len := by
  rw [slice_eq_iff]
  intro k hk
  have hend := h.sector_ends hsome
  rw [h.content_apply (by omega), if_pos (by omega)]
  congr 1
  omega

/-- The chip may be brought up to the content at any time. -/
theorem flushed (h : dev.Holds geo mem) (dirty : Bool) :
    SectorCache.Holds geo { dev with chip := mem, sectorBufDirty := dirty } mem := by
  refine ⟨h.addr, ?_, fun _ => rfl⟩
  by_cases hnone : dev.sectorBufAddr = noSector
  · exact if_pos hnone
  · simp only [SectorCache.content, if_neg hnone]
    rw [← h.patched hnone, patch_patch]

/-- A sector other than the buffered one may be stored on the chip. -/
theorem direct (h : dev.Holds geo mem) {offs : Nat} (src : Nat → UInt8)
    (hdvd : geo.sectorSz ∣ offs) (hne : offs ≠ dev.sectorBufAddr) :
    SectorCache.Holds geo { dev with chip := patch dev.chip offs geo.sectorSz src }
      (patch mem offs geo.sectorSz src) := by
  refine ⟨h.addr, ?_, fun hclean => ?_⟩
  · by_cases hnone : dev.sectorBufAddr = noSector
    · simp only [SectorCache.content, if_pos hnone, h.chip_of_none hnone]
    · simp only [SectorCache.content, if_neg hnone]
      rw [patch_comm (geo.sectors_apart hdvd (h.dvd_of_some hnone) hne), h.patched hnone]
  · rw [← h.clean hclean]

/-- The buffered sector may be dropped when it is overwritten on the chip. -/
theorem drop (h : dev.Holds geo mem) (src : Nat → UInt8)
    (hsome : dev.sectorBufAddr ≠ noSector) :
    SectorCache.Holds geo { dev with
        sectorBufAddr := noSector
        chip := patch dev.chip dev.sectorBufAddr geo.sectorSz src }
      (patch mem dev.sectorBufAddr geo.sectorSz src) := by
  rw [← h.patched hsome, patch_patch]
  exact of_none

/-- A sector of an up-to-date chip may be read into the buffer. -/
theorem load {addr : Nat} (dirty : Bool) (buf : Nat → UInt8) (hdvd : geo.sectorSz ∣ addr)
    (hlt : addr < geo.totalSz) :
    SectorCache.Holds geo
      ⟨mem, addr, dirty, patch buf 0 geo.sectorSz (fun i => mem (addr + i))⟩ mem := by
  refine ⟨Or.inr ⟨hdvd, hlt⟩, ?_, fun _ => rfl⟩
  simp only [SectorCache.content, if_neg (geo.ne_noSector hlt)]
  refine patch_same fun i hi => ?_
  rw [patch_inside (by omega), Nat.sub_zero]

theorem fill (h : dev.Holds geo mem) {offs : Nat} {chunk : List UInt8} (hlt : offs < geo.totalSz)
    (haddr : geo.getSectorAddress offs = dev.sectorBufAddr)
    (hfits : geo.sectorOfs offs + chunk.length ≤ geo.sectorSz) :
    (fillBuffer geo dev offs chunk).Holds geo (overlay mem offs chunk) := by
  obtain ⟨hdvd, hsector, hsplit⟩ := geo.sector_split hlt
  have hsome := geo.ne_noSector hsector
  rw [haddr] at hsome
  rw [fillBuffer, if_pos haddr]
  refine ⟨h.addr, ?_, fun hclean => absurd hclean (by simp)⟩
  simp only [SectorCache.content, if_neg hsome]
  rw [patch_overlay chunk hfits, h.patched hsome, ← haddr, hsplit]

end SectorCache.Holds

/-- A whole sector taken from the front of the data. -/
theorem patch_front (mem : Nat → UInt8) (base : Nat) {data : List UInt8} {sz : Nat}
    (h : sz ≤ data.length) :
    patch mem base sz (fun i => data.getD i 0) = overlay mem base (data.take sz) := by
  rw [← patch_getD (data.take sz) 0 (List.length_take_of_le h)]
  refine patch_congr fun i hi => ?_
  simp only [List.getD_eq_getElem?_getD, List.getElem?_take_of_lt hi]

section Write
variable (ops : SectorOps geo) {dev : SectorCache} {mem : Nat → UInt8}

/-- One round of the loop: whichever way the bytes for a sector take, they end up
in the content. -/
theorem writeSector_spec (h : dev.Holds geo mem) {offs : Nat} (hlt : offs < geo.totalSz)
    (data : List UInt8) :
    ∃ dev' res, enterSector geo ops.directSectorWrite ops.sync dev offs data = (dev', res) ∧
      0 ≤ res ∧
      (fillBuffer geo dev' offs (data.take (geo.chunkSz offs data.length))).Holds geo
        (overlay mem offs (data.take (geo.chunkSz offs data.length))) := by
  obtain ⟨hdvd, hsector, hsplit⟩ := geo.sector_split hlt
  obtain ⟨hchunk, hfits⟩ := geo.chunkSz_spec offs data.length
  have hlen := List.length_take_of_le hchunk
  by_cases haddr : geo.getSectorAddress offs = dev.sectorBufAddr
  · exact ⟨dev, EOK, by rw [enterSector, if_pos haddr], by decide, h.fill hlt haddr (by omega)⟩
  · by_cases hwhole : geo.sectorOfs offs = 0 ∧ geo.chunkSz offs data.length = geo.sectorSz
    · have hoffs : geo.getSectorAddress offs = offs := by omega
      obtain ⟨res, hwrite, hres⟩ := ops.directSectorWrite_spec dev.chip offs
        (fun pos => data.getD pos 0) (hoffs ▸ hdvd)
      refine ⟨{ dev with chip := patch dev.chip offs geo.sectorSz (fun pos => data.getD pos 0) },
        res, by rw [enterSector, if_neg haddr, if_pos hwhole, hwrite], hres, ?_⟩
      simp only [fillBuffer, if_neg haddr, hwhole.2]
      rw [← patch_front mem offs (hwhole.2 ▸ hchunk)]
      exact h.direct _ (hoffs ▸ hdvd) (hoffs ▸ haddr)
    · obtain ⟨dirty, res, hsync, hres⟩ := ops.sync_spec dev mem h
      refine ⟨_, EOK, ?_, by decide,
        (SectorCache.Holds.load dirty dev.sectorBuf hdvd hsector).fill hlt rfl (by omega)⟩
      rw [enterSector, if_neg haddr, if_neg hwhole, hsync]
      exact if_neg (Int.not_lt.mpr hres)

theorem writeSectors_spec (h : dev.Holds geo mem) {offs : Nat} {data : List UInt8}
    (hfits : offs + data.length ≤ geo.totalSz) :
    ∃ dev', writeSectors geo ops.directSectorWrite ops.sync dev offs data = (dev', EOK) ∧
      dev'.Holds geo (overlay mem offs data) := by
  induction hn : data.length using Nat.strong_induction_on generalizing dev mem offs data with
  | _ n ih =>
      subst hn
      rw [writeSectors]
      split
      · next hdata =>
        subst hdata
        refine ⟨dev, rfl, ?_⟩
        rw [overlay_nil]
        exact h
      · next hdata =>
        have hlen := List.length_pos_iff.mpr hdata
        have hpos := geo.chunkSz_pos offs hlen
        have hchunk := (geo.chunkSz_spec offs data.length).1
        have htop := geo.totalSz_lt
        obtain ⟨dev₁, res, henter, hres, hround⟩ := writeSector_spec ops h
          (by omega : offs < geo.totalSz) data
        have hmod : (offs + geo.chunkSz offs data.length) % 2 ^ 32 =
            offs + geo.chunkSz offs data.length := Nat.mod_eq_of_lt (by omega)
        have hdrop : (data.drop (geo.chunkSz offs data.length)).length =
            data.length - geo.chunkSz offs data.length := List.length_drop
        obtain ⟨dev', hloop, hdev'⟩ := ih (data.drop (geo.chunkSz offs data.length)).length
          (by omega) hround (by omega : offs + geo.chunkSz offs data.length +
            (data.drop (geo.chunkSz offs data.length)).length ≤ geo.totalSz) rfl
        refine ⟨dev', ?_, ?_⟩
        · simp only [henter, if_neg (Int.not_lt.mpr hres), hmod]
          exact hloop
        · rw [overlay_take_drop mem offs data hchunk] at hdev'
          exact hdev'

theorem fdrvIsValidAddress_of_le {offs len : Nat} (hlt : offs < geo.totalSz)
    (hfits : offs + len ≤ geo.totalSz) : fdrvIsValidAddress geo.totalSz offs len = true := by
  have htop := geo.totalSz_lt
  rw [fdrvIsValidAddress, Nat.mod_eq_of_lt (by omega)]
  simp [hlt, hfits]

theorem writeBuffered_spec (h : dev.Holds geo mem) {offs : Nat} {data : List UInt8}
    (hlt : offs < geo.totalSz) (hfits : offs + data.length ≤ geo.totalSz) :
    ∃ dev', writeBuffered geo ops.directSectorWrite ops.sync dev offs data =
        (dev', (data.length : Int)) ∧ dev'.Holds geo (overlay mem offs data) := by
  have hvalid := fdrvIsValidAddress_of_le hlt hfits
  simp only [writeBuffered, hvalid, Bool.true_eq_false, if_false]
  by_cases hdata : data = []
  · subst hdata
    refine ⟨dev, rfl, ?_⟩
    rw [overlay_nil]
    exact h
  · obtain ⟨dev', hloop, hdev'⟩ := writeSectors_spec ops h hfits
    refine ⟨dev', ?_, hdev'⟩
    simp only [if_neg hdata, hloop, EOK, Int.lt_irrefl, if_false]

end Write

/-- Erasing the whole chip leaves nothing of the buffered sector. -/
theorem SectorCache.Holds.erase_chip_eq {dev : SectorCache} {mem : Nat → UInt8}
    (h : dev.Holds geo mem) : Nor.erase dev.chip 0 geo.totalSz = Nor.erase mem 0 geo.totalSz := by
  funext a
  simp only [Nor.erase, patch]
  split
  · rfl
  · next hout =>
    by_cases hnone : dev.sectorBufAddr = noSector
    · rw [h.chip_of_none hnone]
    · have hend := h.sector_ends hnone
      rw [← h.patched hnone, patch_outside (by omega)]

theorem SectorCache.Holds.eraseAll {dev : SectorCache} {mem : Nat → UInt8}
    (h : dev.Holds geo mem) :
    SectorCache.Holds geo
      { dev with sectorBufAddr := noSector, chip := Nor.erase dev.chip 0 geo.totalSz }
      (Nor.erase mem 0 geo.totalSz) := by
  rw [h.erase_chip_eq]
  exact of_none

/-- One round of the erase. -/
theorem eraseSector_spec {dev : SectorCache} {mem : Nat → UInt8} (h : dev.Holds geo mem)
    {addr : Nat} (hdvd : geo.sectorSz ∣ addr) (hlt : addr < geo.totalSz) :
    SectorCache.Holds geo
      { (if addr = dev.sectorBufAddr then { dev with sectorBufAddr := noSector } else dev) with
        chip := geo.eraseSector dev.chip addr }
      (Nor.erase mem addr geo.sectorSz) := by
  have hstart : geo.eraseSector dev.chip addr = Nor.erase dev.chip addr geo.sectorSz := by
    rw [SectorGeometry.eraseSector, Nat.div_mul_cancel hdvd]
  rw [hstart]
  split
  · next haddr =>
    subst haddr
    exact h.drop _ (geo.ne_noSector hlt)
  · next haddr => exact h.direct _ hdvd haddr

theorem erase_nothing (mem : Nat → UInt8) {addr len : Nat} (h : len = 0) :
    Nor.erase mem addr len = mem := patch_same (by omega)

theorem erase_append (mem : Nat → UInt8) (base m n : Nat) :
    Nor.erase (Nor.erase mem base m) (base + m) n = Nor.erase mem base (m + n) := by
  funext a
  simp only [Nor.erase, patch]
  by_cases hlast : base + m ≤ a ∧ a < base + m + n
  · rw [if_pos hlast, if_pos (by omega)]
  · rw [if_neg hlast]
    by_cases hfirst : base ≤ a ∧ a < base + m
    · rw [if_pos hfirst, if_pos (by omega)]
    · rw [if_neg hfirst, if_neg (by omega)]

theorem eraseSectors_spec (n : Nat) {dev : SectorCache} {mem : Nat → UInt8}
    (h : dev.Holds geo mem) {addr : Nat} (len : Nat) (hdvd : geo.sectorSz ∣ addr)
    (hfits : addr + n * geo.sectorSz ≤ geo.totalSz) :
    ∃ dev', eraseSectors geo dev addr (addr + n * geo.sectorSz) len =
        (dev', ((len + n * geo.sectorSz : Nat) : Int)) ∧
      dev'.Holds geo (Nor.erase mem addr (n * geo.sectorSz)) := by
  have hpos := geo.sectorSz_pos
  induction n generalizing dev mem addr len with
  | zero =>
      rw [eraseSectors, if_neg (by omega)]
      refine ⟨dev, by simp, ?_⟩
      rw [erase_nothing mem (Nat.zero_mul _)]
      exact h
  | succ n ih =>
      have hsucc : (n + 1) * geo.sectorSz = geo.sectorSz + n * geo.sectorSz := by
        rw [Nat.add_mul, Nat.one_mul, Nat.add_comm]
      rw [hsucc] at hfits ⊢
      obtain ⟨dev', hloop, hdev'⟩ := ih (eraseSector_spec h hdvd (by omega))
        (len + geo.sectorSz) (Nat.dvd_add hdvd (Nat.dvd_refl _)) (by omega)
      refine ⟨dev', ?_, ?_⟩
      · rw [eraseSectors, if_pos (by omega), ← Nat.add_assoc, ← Nat.add_assoc, ← hloop]
        split <;> rfl
      · rw [erase_append] at hdev'
        exact hdev'

/-- Rounding the end of a range on the chip up does not wrap. -/
theorem getSectorAddress_roundUp {stop : Nat} (hfits : stop ≤ geo.totalSz) :
    geo.getSectorAddress ((stop + geo.sectorSz - 1) % 2 ^ 32) =
      (stop + geo.sectorSz - 1) / geo.sectorSz * geo.sectorSz := by
  have hpos := geo.sectorSz_pos
  have htop : geo.totalSz + geo.sectorSz ≤ 2 ^ 32 := by
    obtain ⟨k, hk32, hk⟩ := geo.sectorSz_bits
    exact add_le_of_dvd_of_lt geo.sectorSz_dvd (hk ▸ Nat.pow_dvd_pow 2 hk32) geo.totalSz_lt
  have hword : stop + geo.sectorSz - 1 < 2 ^ 32 := by omega
  rw [Nat.mod_eq_of_lt hword, geo.getSectorAddress_eq hword]

theorem dvd_erase_end {addr len : Nat} (haddr : geo.sectorSz ∣ addr) (hlen : geo.sectorSz ∣ len)
    (hfits : addr + len ≤ geo.totalSz) :
    geo.getSectorAddress ((addr + len + geo.sectorSz - 1) % 2 ^ 32) = addr + len := by
  have hpos := geo.sectorSz_pos
  have hsum := Nat.dvd_add haddr hlen
  have hdiv : (addr + len + geo.sectorSz - 1) / geo.sectorSz = (addr + len) / geo.sectorSz := by
    obtain ⟨c, hc⟩ := hsum
    rw [hc, Nat.mul_div_cancel_left _ hpos]
    refine Nat.div_eq_of_lt_le ?_ ?_
    · rw [Nat.mul_comm c]
      omega
    · rw [Nat.succ_mul, Nat.mul_comm c]
      omega
  rw [getSectorAddress_roundUp hfits, hdiv, Nat.div_mul_cancel hsum]

theorem eraseAligned_holds {dev : SectorCache} {mem : Nat → UInt8} (h : dev.Holds geo mem)
    {addr len : Nat} (haddr : geo.sectorSz ∣ addr) (hlen : geo.sectorSz ∣ len)
    (hfits : addr + len ≤ geo.totalSz) :
    (eraseSectors geo dev (geo.getSectorAddress addr)
      (geo.getSectorAddress ((geo.getSectorAddress addr + len + geo.sectorSz - 1) % 2 ^ 32))
      0).1.Holds geo (Nor.erase mem addr len) := by
  have htop := geo.totalSz_lt
  have hend := dvd_erase_end haddr hlen hfits
  rw [geo.getSectorAddress_of_dvd (by omega) haddr, hend]
  obtain ⟨n, rfl⟩ := hlen
  rw [Nat.mul_comm] at hfits ⊢
  obtain ⟨dev', hloop, hdev'⟩ := eraseSectors_spec n h 0 haddr hfits
  rw [hloop]
  exact hdev'

theorem eraseBuffered_holds (ops : SectorOps geo) {dev : SectorCache} {mem : Nat → UInt8}
    (h : dev.Holds geo mem) {addr len : Nat} (haddr : geo.sectorSz ∣ addr)
    (hlen : geo.sectorSz ∣ len) (hfits : addr + len ≤ geo.totalSz) :
    (eraseBuffered geo ops.eraseChip dev addr len).1.Holds geo (Nor.erase mem addr len) := by
  have htop := geo.totalSz_lt
  rw [eraseBuffered]
  split
  · next hvalid =>
    by_cases hlt : addr < geo.totalSz
    · exact absurd (fdrvIsValidAddress_of_le hlt hfits) (by rw [hvalid]; decide)
    · rw [erase_nothing mem (by omega)]
      exact h
  · split
    · next hzero =>
      rw [erase_nothing mem hzero]
      exact h
    · split
      · -- a sector of one byte: the range is the whole chip
        have hzero : addr = 0 := by omega
        have htotal : len = geo.totalSz := by omega
        rw [hzero, htotal]
        exact ops.eraseChip_spec dev mem h
      · exact eraseAligned_holds h haddr hlen hfits

inductive SectorCall
  | write (offs : Nat) (data : List UInt8)
  | sync
  | erase (addr len : Nat)

/-- The call on a plain array of bytes. -/
def SectorCall.apply (mem : Nat → UInt8) : SectorCall → Nat → UInt8
  | .write offs data => overlay mem offs data
  | .sync => mem
  | .erase addr len => Nor.erase mem addr len

/-- A write of bytes of the chip, or an erase of whole sectors of it. -/
def SectorCall.InRange (geo : SectorGeometry) : SectorCall → Prop
  | .write offs data => offs < geo.totalSz ∧ offs + data.length ≤ geo.totalSz
  | .sync => True
  | .erase addr len => geo.sectorSz ∣ addr ∧ geo.sectorSz ∣ len ∧ addr + len ≤ geo.totalSz

/-- The calls of a driver made of the operations. -/
def SectorOps.call (ops : SectorOps geo) (dev : SectorCache) : SectorCall → SectorCache × Int
  | .write offs data => writeBuffered geo ops.directSectorWrite ops.sync dev offs data
  | .sync => ops.sync dev
  | .erase addr len => eraseBuffered geo ops.eraseChip dev addr len

theorem SectorOps.call_holds (ops : SectorOps geo) (dev : SectorCache) (mem : Nat → UInt8)
    (c : SectorCall) (h : dev.Holds geo mem) (hc : c.InRange geo) :
    (ops.call dev c).1.Holds geo (c.apply mem) := by
  cases c with
  | write offs data =>
      obtain ⟨dev', hwrite, hdev'⟩ := writeBuffered_spec ops h hc.1 hc.2
      rw [call, hwrite]
      exact hdev'
  | sync =>
      obtain ⟨dirty, res, hsync, _⟩ := ops.sync_spec dev mem h
      rw [call, hsync]
      exact h.flushed dirty
  | erase addr len => exact eraseBuffered_holds ops h hc.1 hc.2.1 hc.2.2

/-- A driver with the plain array that takes the same calls. -/
structure SectorSession where
  dev : SectorCache
  content : Nat → UInt8

def SectorSession.step (call : SectorCache → SectorCall → SectorCache × Int) (s : SectorSession)
    (c : SectorCall) : SectorSession :=
  ⟨(call s.dev c).1, c.apply s.content⟩

/-- In every run the driver holds the plain array that takes the same calls. -/
theorem SectorOps.runs_hold (ops : SectorOps geo) {init s : SectorSession}
    (hinit : init.dev.Holds geo init.content)
    (hrun : Reachable (SectorSession.step ops.call) (fun _ c => c.InRange geo) init s) :
    s.dev.Holds geo s.content := by
  refine hrun.invariant (I := fun s => s.dev.Holds geo s.content) hinit ?_
  intro s c hs hc
  exact ops.call_holds s.dev s.content c hs hc

end Plo.Devices
