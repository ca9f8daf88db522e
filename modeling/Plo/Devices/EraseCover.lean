import Plo.Devices.FlashFtmctrl
import Plo.Devices.FlashSpimctrl

/-!
Which sectors an erase of the GRLIB flash drivers takes. The end of the range is
computed from the start already moved down to the border of its sector, so that
the last sector is missed when the move takes the last byte out of it. The range
is checked before the length that stands for the whole chip is looked at.
-/
namespace Plo.Devices

/-- `(size_t)-1`, the length that asks for the whole chip. -/
abbrev wholeChip : Nat := 2 ^ 32 - 1

namespace SectorGeometry
variable (geo : SectorGeometry)

/-- The sector of the byte intersects the range. -/
def Intersects (addr len a : Nat) : Prop :=
  ∃ b, addr ≤ b ∧ b < addr + len ∧ b / geo.sectorSz = a / geo.sectorSz

/-- What an erase is asked for: the sectors that intersect a range of the chip and
no others, and all of the chip when the length stands for it. -/
structure ErasesRequest (chip chip' : Nat → UInt8) (addr len : Nat) : Prop where
  sectors : 0 < len → addr + len ≤ geo.totalSz → ∀ a,
    (geo.Intersects addr len a → chip' a = Nor.erased) ∧
      (¬geo.Intersects addr len a → chip' a = chip a)
  whole : addr = 0 → len = wholeChip → ∀ a, a < geo.totalSz → chip' a = Nor.erased

/-- A range moved down to the border of its first sector keeps its last byte in the
same sector; for the whole chip, the length is the size of the chip itself. -/
structure KeepsLastSector (addr len : Nat) : Prop where
  sectors : 0 < len → addr + len ≤ geo.totalSz →
    addr % geo.sectorSz + (len - 1) % geo.sectorSz < geo.sectorSz
  whole : addr = 0 → len = wholeChip → geo.totalSz = wholeChip

variable {geo}

/-- The sectors that intersect a range go from the one of its first byte to the one
of its last byte. -/
theorem intersects_iff {addr len : Nat} (hlen : 0 < len) (a : Nat) :
    geo.Intersects addr len a ↔
      addr / geo.sectorSz ≤ a / geo.sectorSz ∧
        a / geo.sectorSz ≤ (addr + (len - 1)) / geo.sectorSz := by
  have hpos := geo.sectorSz_pos
  constructor
  · rintro ⟨b, hlo, hhi, hsector⟩
    rw [← hsector]
    exact ⟨Nat.div_le_div_right hlo, Nat.div_le_div_right (by omega)⟩
  · rintro ⟨hlo, hhi⟩
    -- the first byte of the range, or the first byte of the sector
    by_cases hfirst : addr / geo.sectorSz = a / geo.sectorSz
    · exact ⟨addr, Nat.le_refl _, by omega, hfirst⟩
    · have hstart : addr < a / geo.sectorSz * geo.sectorSz := by
        rw [← Nat.div_lt_iff_lt_mul hpos]
        exact Nat.lt_of_le_of_ne hlo hfirst
      have hend := (Nat.le_div_iff_mul_le hpos).mp hhi
      exact ⟨a / geo.sectorSz * geo.sectorSz, by omega, by omega, Nat.mul_div_cancel _ hpos⟩

/-- The sum of two offsets is in the sector of the quotients unless the rests carry. -/
theorem last_sector_iff (addr last : Nat) :
    (addr + last) / geo.sectorSz = addr / geo.sectorSz + last / geo.sectorSz ↔
      addr % geo.sectorSz + last % geo.sectorSz < geo.sectorSz := by
  rw [Nat.add_div geo.sectorSz_pos]
  split <;> omega

/-- A size that is a power of two and divides an odd one is one. -/
theorem sectorSz_of_wholeChip (h : geo.totalSz = wholeChip) : geo.sectorSz = 1 := by
  obtain ⟨k, hk⟩ := geo.sectorSz_pow
  cases k with
  | zero => exact hk
  | succ k =>
      have heven : 2 ∣ geo.totalSz := by
        refine Nat.dvd_trans ?_ geo.sectorSz_dvd
        rw [hk, Nat.pow_succ]
        exact Nat.dvd_mul_left _ _
      rw [h, wholeChip] at heven
      omega

/-- The end that is computed from an aligned start. -/
theorem getSectorAddress_end {start len : Nat} (hlen : 0 < len) (hstart : geo.sectorSz ∣ start)
    (hfits : start + len ≤ geo.totalSz) :
    geo.getSectorAddress ((start + len + geo.sectorSz - 1) % 2 ^ 32) =
      start + ((len - 1) / geo.sectorSz + 1) * geo.sectorSz := by
  have hpos := geo.sectorSz_pos
  obtain ⟨c, rfl⟩ := hstart
  have hsum : geo.sectorSz * c + len + geo.sectorSz - 1 =
      len - 1 + geo.sectorSz * (c + 1) := by
    rw [Nat.mul_succ]
    omega
  rw [getSectorAddress_roundUp hfits, hsum, Nat.add_mul_div_left _ _ hpos,
    Nat.mul_comm geo.sectorSz, ← Nat.add_mul]
  congr 1
  omega

end SectorGeometry

variable {geo : SectorGeometry}

theorem eraseSectors_chip (n : Nat) (dev : SectorCache) (addr len : Nat)
    (hdvd : geo.sectorSz ∣ addr) :
    (eraseSectors geo dev addr (addr + n * geo.sectorSz) len).1.chip =
      Nor.erase dev.chip addr (n * geo.sectorSz) := by
  have hpos := geo.sectorSz_pos
  induction n generalizing dev addr len with
  | zero =>
      rw [eraseSectors, if_neg (by omega), erase_nothing _ (Nat.zero_mul _)]
  | succ n ih =>
      have hsucc : (n + 1) * geo.sectorSz = geo.sectorSz + n * geo.sectorSz := by
        rw [Nat.add_mul, Nat.one_mul, Nat.add_comm]
      have hsector : geo.eraseSector dev.chip addr = Nor.erase dev.chip addr geo.sectorSz := by
        rw [SectorGeometry.eraseSector, Nat.div_mul_cancel hdvd]
      rw [hsucc, eraseSectors, if_pos (by omega), ← Nat.add_assoc,
        ih _ _ _ (Nat.dvd_add hdvd (Nat.dvd_refl _)), ← erase_append, ← hsector]
      split <;> rfl

/-- An erase of part of the chip takes as many sectors as the length alone needs. -/
theorem eraseBuffered_chip (eraseChip : SectorCache → SectorCache × Int) (dev : SectorCache)
    {addr len : Nat} (hlen : 0 < len) (hfits : addr + len ≤ geo.totalSz) (hpart : len ≠ wholeChip) :
    (eraseBuffered geo eraseChip dev addr len).1.chip =
      Nor.erase dev.chip (addr / geo.sectorSz * geo.sectorSz)
        (((len - 1) / geo.sectorSz + 1) * geo.sectorSz) := by
  have htop := geo.totalSz_lt
  have hvalid := fdrvIsValidAddress_of_le (by omega) hfits
  have hdown : addr / geo.sectorSz * geo.sectorSz ≤ addr := Nat.div_mul_le_self _ _
  rw [eraseBuffered, hvalid, if_neg (by decide), if_neg (by omega), if_neg hpart,
    geo.getSectorAddress_eq (by omega),
    SectorGeometry.getSectorAddress_end hlen (Nat.dvd_mul_left _ _) (by omega),
    eraseSectors_chip _ _ _ _ (Nat.dvd_mul_left _ _)]

theorem eraseBuffered_refused (eraseChip : SectorCache → SectorCache × Int) (dev : SectorCache)
    (h : geo.totalSz ≠ wholeChip) : (eraseBuffered geo eraseChip dev 0 wholeChip).1 = dev := by
  have htop := geo.totalSz_lt
  simp only [wholeChip] at h
  have hrefused : fdrvIsValidAddress geo.totalSz 0 wholeChip = false := by
    simp only [fdrvIsValidAddress, Bool.and_eq_false_iff, decide_eq_false_iff_not, wholeChip]
    omega
  rw [eraseBuffered, hrefused, if_pos rfl]

/-- The bytes of the sectors that are erased. -/
theorem erase_apply (chip : Nat → UInt8) (first n a : Nat) :
    Nor.erase chip (first * geo.sectorSz) (n * geo.sectorSz) a =
      if first ≤ a / geo.sectorSz ∧ a / geo.sectorSz < first + n then Nor.erased else chip a := by
  have hpos := geo.sectorSz_pos
  simp only [Nor.erase, patch, ← Nat.add_mul, Nat.le_div_iff_mul_le hpos,
    Nat.div_lt_iff_lt_mul hpos]

section Erase
variable {eraseChip : SectorCache → SectorCache × Int}

/-- A chip of zeros, on which an erased byte tells. -/
private def zeroed : SectorCache := ⟨fun _ => 0, noSector, false, fun _ => 0⟩

/-- Of a range on the chip the last sector is erased unless the rests carry. -/
theorem eraseBuffered_sectors_iff {addr len : Nat} (hlen : 0 < len)
    (hfits : addr + len ≤ geo.totalSz) (hpart : len ≠ wholeChip) :
    (∀ dev a, (geo.Intersects addr len a →
          (eraseBuffered geo eraseChip dev addr len).1.chip a = Nor.erased) ∧
        (¬geo.Intersects addr len a →
          (eraseBuffered geo eraseChip dev addr len).1.chip a = dev.chip a)) ↔
      addr % geo.sectorSz + (len - 1) % geo.sectorSz < geo.sectorSz := by
  have hpos := geo.sectorSz_pos
  rw [← SectorGeometry.last_sector_iff]
  simp only [eraseBuffered_chip eraseChip _ hlen hfits hpart, erase_apply,
    SectorGeometry.intersects_iff hlen]
  constructor
  · intro hright
    -- the last byte of the range has to change
    have hlast := (hright zeroed (addr + (len - 1))).1
      ⟨Nat.div_le_div_right (Nat.le_add_right _ _), Nat.le_refl _⟩
    have hle : addr / geo.sectorSz + (len - 1) / geo.sectorSz ≤
        (addr + (len - 1)) / geo.sectorSz := Nat.div_add_div_le_add_div
    split at hlast
    · next hin => omega
    · exact absurd hlast (by simp only [zeroed, Nor.erased]; decide)
  · intro hsum dev a
    rw [hsum]
    constructor
    · intro hin
      exact if_pos ⟨hin.1, by omega⟩
    · intro hout
      exact if_neg (fun hin => hout ⟨hin.1, by omega⟩)

/-- On a chip as large as the length that stands for it, a sector is one byte and a
range of that length is the whole chip. -/
theorem eraseBuffered_whole
    (hchip : ∀ dev, (eraseChip dev).1.chip = Nor.erase dev.chip 0 geo.totalSz)
    (dev : SectorCache) (addr : Nat) (htotal : geo.totalSz = wholeChip) :
    geo.ErasesRequest dev.chip (eraseBuffered geo eraseChip dev addr wholeChip).1.chip
      addr wholeChip := by
  have hone := SectorGeometry.sectorSz_of_wholeChip htotal
  have herase : addr = 0 → (eraseBuffered geo eraseChip dev addr wholeChip).1.chip =
      Nor.erase dev.chip 0 wholeChip := by
    rintro rfl
    have hvalid : fdrvIsValidAddress geo.totalSz 0 wholeChip = true :=
      fdrvIsValidAddress_of_le geo.totalSz_pos (by omega)
    rw [eraseBuffered, hvalid, if_neg (by decide), if_neg (by decide), if_pos rfl, hchip, htotal]
  constructor
  · intro hlen hfits a
    have haddr : addr = 0 := by omega
    subst haddr
    rw [herase rfl, SectorGeometry.intersects_iff hlen, hone]
    simp only [Nor.erase, patch, Nat.div_one]
    constructor
    · intro hin
      exact if_pos (by omega)
    · intro hout
      exact if_neg (by omega)
  · intro haddr _ a ha
    rw [herase haddr, Nor.erase, patch, if_pos (by omega)]

/-- The erase does what it is asked for, whatever the chip and the buffer hold, just
for the requests that keep their last sector. -/
theorem eraseBuffered_right_iff
    (hchip : ∀ dev, (eraseChip dev).1.chip = Nor.erase dev.chip 0 geo.totalSz) (addr len : Nat) :
    (∀ dev, geo.ErasesRequest dev.chip (eraseBuffered geo eraseChip dev addr len).1.chip addr len) ↔
      geo.KeepsLastSector addr len := by
  have htop := geo.totalSz_lt
  by_cases hwhole : len = wholeChip
  · subst hwhole
    by_cases htotal : geo.totalSz = wholeChip
    · have hone := SectorGeometry.sectorSz_of_wholeChip htotal
      have hkeeps : geo.KeepsLastSector addr wholeChip :=
        ⟨fun _ _ => by simp only [hone, Nat.mod_one, Nat.add_zero, Nat.lt_one_iff],
          fun _ _ => htotal⟩
      exact iff_of_true (fun dev => eraseBuffered_whole hchip dev addr htotal) hkeeps
    · have hout : ¬addr + wholeChip ≤ geo.totalSz := by
        simp only [wholeChip] at htotal ⊢
        omega
      constructor
      · intro hright
        refine ⟨fun _ hfits => absurd hfits hout, fun haddr _ => ?_⟩
        have hfirst := (hright zeroed).whole haddr rfl 0 geo.totalSz_pos
        rw [haddr, eraseBuffered_refused eraseChip zeroed htotal] at hfirst
        exact absurd hfirst (by simp only [zeroed, Nor.erased]; decide)
      · intro hkeeps dev
        exact ⟨fun _ hfits => absurd hfits hout, fun haddr hlen =>
          absurd (hkeeps.whole haddr hlen) htotal⟩
  · constructor
    · intro hright
      refine ⟨fun hlen hfits => ?_, fun _ h => absurd h hwhole⟩
      exact (eraseBuffered_sectors_iff hlen hfits hwhole).mp
        fun dev => (hright dev).sectors hlen hfits
    · intro hkeeps dev
      refine ⟨fun hlen hfits => ?_, fun _ h => absurd h hwhole⟩
      exact (eraseBuffered_sectors_iff hlen hfits hwhole).mpr (hkeeps.sectors hlen hfits) dev

end Erase

theorem Ftmctrl.eraseChip_chip (dev : Ftmctrl.FlashDevice) (s : SectorCache) :
    (Ftmctrl.eraseChip dev s).1.chip = Nor.erase s.chip 0 dev.geometry.totalSz := by
  simp only [Ftmctrl.eraseChip]
  split
  · rfl
  · obtain ⟨n, hn⟩ := dev.geometry.sectorSz_dvd
    have htotal : Ftmctrl.cfiSize dev.chipSz = 0 + n * dev.geometry.sectorSz := by
      rw [Nat.zero_add, Nat.mul_comm, ← hn]
      rfl
    rw [htotal, eraseSectors_chip _ _ _ _ (Nat.dvd_zero _), hn, Nat.mul_comm]

/-- Both drivers erase exactly the sectors that intersect a range of the chip, and the
whole chip for the length that stands for it, just for the requests that keep their
last sector. -/
theorem flashdrvErase_covers_iff (info : Spimctrl.NorInfo) (dev : Ftmctrl.FlashDevice)
    (addr len : Nat) :
    ((∀ s, info.ErasesRequest s.chip (Spimctrl.flashdrvErase info s addr len).1.chip addr len) ↔
        info.KeepsLastSector addr len) ∧
      ((∀ s, dev.geometry.ErasesRequest s.chip
            (Ftmctrl.flashdrvErase dev s addr len).1.chip addr len) ↔
        dev.geometry.KeepsLastSector addr len) :=
  ⟨eraseBuffered_right_iff (fun _ => rfl) addr len,
    eraseBuffered_right_iff (Ftmctrl.eraseChip_chip dev) addr len⟩

/-- Two bytes over a border of sectors, of which the second one stays, and the request
for the whole chip, which is refused. -/
theorem erase_misses_border_and_chip :
    (¬∀ s, Spimctrl.s25fl128s.ErasesRequest s.chip
        (Spimctrl.flashdrvErase Spimctrl.s25fl128s s 0xffff 2).1.chip 0xffff 2) ∧
      ¬∀ s, Spimctrl.s25fl128s.ErasesRequest s.chip
        (Spimctrl.flashdrvErase Spimctrl.s25fl128s s 0 wholeChip).1.chip 0 wholeChip := by
  constructor
  · intro hright
    have hkeeps := (eraseBuffered_right_iff (fun _ => rfl) 0xffff 2).mp hright
    exact absurd (hkeeps.sectors (by decide) (by decide)) (by decide)
  · intro hright
    have hkeeps := (eraseBuffered_right_iff (fun _ => rfl) 0 wholeChip).mp hright
    exact absurd (hkeeps.whole rfl rfl) (by decide)

end Plo.Devices
