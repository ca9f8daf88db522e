import Plo.Devices.DiskBios

/-!
The window of the write cache. A block of a disk has a place in the segment of its
track; the window covers some blocks of one segment of one disk. Outside the window
the disks hold what was written to them; writing the window back makes up the
rest, where the cache holds it.
-/
namespace Plo.Devices.DiskBios

namespace Geo
variable (g : Geo)

/-- The first block of the segment of a block. -/
def segBase (blocks sb : Nat) : Nat :=
  (g.cyl sb * g.heads + g.head sb) * g.secs + segment blocks (g.sec sb)

theorem segment_add_mod (blocks s : Nat) : segment blocks s + s % blocks = s := by
  rw [segment, Nat.mul_comm]
  exact Nat.div_add_mod s blocks

theorem track_eq (sb : Nat) : g.cyl sb * g.heads + g.head sb = sb / g.secs := by
  rw [cyl, head, Nat.mul_comm]
  exact Nat.div_add_mod _ _

theorem segBase_add (blocks sb : Nat) : g.segBase blocks sb + g.sec sb % blocks = sb := by
  rw [segBase, Nat.add_assoc, segment_add_mod, track_eq, sec, Nat.mul_comm]
  exact Nat.div_add_mod _ _

/-- The next block is the next one of the segment, or the first of another. -/
theorem segBase_succ (blocks sb : Nat) (hblocks : 0 < blocks) :
    (g.cyl (sb + 1) = g.cyl sb ∧ g.head (sb + 1) = g.head sb ∧
      segment blocks (g.sec (sb + 1)) = segment blocks (g.sec sb) ∧
      g.segBase blocks (sb + 1) = g.segBase blocks sb) ∨
    (g.segBase blocks (sb + 1) = sb + 1 ∧
      (g.sec sb % blocks + 1 = blocks ∨ g.sec sb + 1 = g.secs)) := by
  have hsecs := g.secs_pos
  have hadd := g.segBase_add blocks (sb + 1)
  have hlt : g.sec sb < g.secs := Nat.mod_lt _ hsecs
  by_cases htrack : g.sec sb + 1 < g.secs
  · have hdvd : ¬g.secs ∣ sb + 1 := by
      intro hdvd
      have hmod := Nat.mod_eq_zero_of_dvd hdvd
      rw [Nat.add_mod, Nat.mod_eq_of_lt (by omega : 1 < g.secs)] at hmod
      rw [sec] at htrack
      rw [Nat.mod_eq_of_lt htrack] at hmod
      omega
    have hdiv : (sb + 1) / g.secs = sb / g.secs := Nat.succ_div_of_not_dvd hdvd
    have hsec : g.sec (sb + 1) = g.sec sb + 1 := by
      rw [sec, sec, Nat.add_mod, Nat.mod_eq_of_lt (by omega : 1 < g.secs)]
      exact Nat.mod_eq_of_lt htrack
    by_cases hseg : g.sec sb % blocks + 1 = blocks
    · have hzero : g.sec (sb + 1) % blocks = 0 := by
        rw [hsec, Nat.add_mod]
        have hone := Nat.mod_add_mod (g.sec sb) blocks 1
        rw [hseg, Nat.mod_self] at hone
        rw [← Nat.add_mod, ← hone]
      exact Or.inr ⟨by omega, Or.inl hseg⟩
    · have hnd : ¬blocks ∣ g.sec sb + 1 := by
        intro hdvd
        have hmod := Nat.mod_eq_zero_of_dvd hdvd
        have hlt := Nat.mod_lt (g.sec sb) hblocks
        rw [← Nat.mod_add_mod, Nat.mod_eq_of_lt (by omega)] at hmod
        omega
      have hsegment : segment blocks (g.sec (sb + 1)) = segment blocks (g.sec sb) := by
        rw [segment, segment, hsec, Nat.succ_div_of_not_dvd hnd]
      have hcyl : g.cyl (sb + 1) = g.cyl sb := by rw [cyl, cyl, hdiv]
      have hhead : g.head (sb + 1) = g.head sb := by rw [head, head, hdiv]
      exact Or.inl ⟨hcyl, hhead, hsegment, by rw [segBase, segBase, hcyl, hhead, hsegment]⟩
  · have hlast : g.sec sb + 1 = g.secs := by omega
    have hzero : g.sec (sb + 1) = 0 := by
      rw [sec, ← Nat.mod_add_mod]
      rw [sec] at hlast
      rw [hlast, Nat.mod_self]
    rw [hzero, Nat.zero_mod] at hadd
    exact Or.inr ⟨hadd, Or.inr hlast⟩

theorem segBase_le (blocks sb : Nat) : g.segBase blocks sb ≤ sb := by
  have hadd := g.segBase_add blocks sb
  omega

theorem segBase_mono (blocks : Nat) (hblocks : 0 < blocks) (sb k : Nat) :
    g.segBase blocks sb ≤ g.segBase blocks (sb + k) := by
  induction k with
  | zero => exact Nat.le_refl _
  | succ k ih =>
      have hle := g.segBase_le blocks (sb + k)
      cases g.segBase_succ blocks (sb + k) hblocks with
      | inl hsame => rw [← Nat.add_assoc, hsame.2.2.2]; exact ih
      | inr hnext => rw [← Nat.add_assoc, hnext.1]; omega

end Geo

section Window
variable (geo : Nat → Geo)

/-- The first block of the segment in the cache. -/
def windowBase (dev : DiskCommon) : Nat :=
  (dev.lwc * (geo dev.lwdn).heads + dev.lwh) * (geo dev.lwdn).secs + dev.lwp

/-- The byte of a disk is in a block of the window. -/
def InWindow (dev : DiskCommon) (dn a : Nat) : Prop :=
  dn = dev.lwdn ∧ (windowBase geo dev + dev.lwb) * SIZE_BLOCK ≤ a ∧
    a < (windowBase geo dev + dev.lwe) * SIZE_BLOCK

/-- What the cache has for a byte of the disk, with block `base` at its start. -/
def cached (dev : DiskCommon) (base a : Nat) : UInt8 := dev.wcache (a - base * SIZE_BLOCK)

/-- The disks hold the content outside the window. -/
structure Holds (dev : DiskCommon) (content : Nat → Nat → UInt8) : Prop where
  le : dev.lwb ≤ dev.lwe
  bound : dev.lwe ≤ BLOCKS_WCACHE
  track : dev.lwb ≠ dev.lwe → dev.lwp + dev.lwe ≤ (geo dev.lwdn).secs
  rest : ∀ dn a, ¬InWindow geo dev dn a → dev.disk dn a = content dn a

/-- The cache holds the content in the window. -/
def Clean (dev : DiskCommon) (content : Nat → Nat → UInt8) : Prop :=
  ∀ a, InWindow geo dev dev.lwdn a → cached dev (windowBase geo dev) a = content dev.lwdn a

/-- The content after a write to a disk. -/
def put (content : Nat → Nat → UInt8) (dn offs : Nat) (data : List UInt8) : Nat → Nat → UInt8 :=
  Function.update content dn (overlay (content dn) offs data)

end Window

section Step
variable {geo : Nat → Geo} {dev : DiskCommon} {content : Nat → Nat → UInt8}

@[simp] theorem put_self (dn offs : Nat) (data : List UInt8) :
    put content dn offs data dn = overlay (content dn) offs data := Function.update_self ..

theorem put_of_ne {dn dn' : Nat} (h : dn' ≠ dn) (offs : Nat) (data : List UInt8) :
    put content dn offs data dn' = content dn' := Function.update_of_ne h ..

theorem put_take_drop (dn offs : Nat) (data : List UInt8) {n : Nat} (hn : n ≤ data.length) :
    put (put content dn offs (data.take n)) dn (offs + n) (data.drop n) = put content dn offs data := by
  rw [put, put_self, overlay_take_drop _ _ _ hn, put, put, Function.update_idem]

theorem not_inWindow_of_eq (h : dev.lwb = dev.lwe) (dn a : Nat) : ¬InWindow geo dev dn a := by
  intro hin
  have hlo := hin.2.1
  rw [h] at hlo
  exact absurd hin.2.2 (Nat.not_lt.mpr hlo)

theorem Holds.disk_eq (h : Holds geo dev content) (hnone : dev.lwb = dev.lwe) : dev.disk = content := by
  funext dn a
  exact h.rest dn a (not_inWindow_of_eq hnone dn a)

/-- Writing a clean window to its own disk brings the disks up to date. -/
theorem Holds.flush_disk (h : Holds geo dev content) (hclean : Clean geo dev content) :
    (flush geo dev dev.lwdn).disk = content := by
  have hle := h.le
  have hblock : (geo dev.lwdn).block dev.lwc dev.lwh (dev.lwp + dev.lwb + 1) =
      windowBase geo dev + dev.lwb := by
    rw [Geo.block, windowBase, Nat.add_sub_cancel, Nat.add_assoc]
  have hend : (windowBase geo dev + dev.lwb) * SIZE_BLOCK + (dev.lwe - dev.lwb) * SIZE_BLOCK =
      (windowBase geo dev + dev.lwe) * SIZE_BLOCK := by
    rw [SIZE_BLOCK]
    omega
  funext dn a
  by_cases hdn : dn = dev.lwdn
  · rw [hdn]
    show Function.update dev.disk dev.lwdn _ dev.lwdn a = _
    rw [Function.update_self, hblock]
    by_cases hin : InWindow geo dev dev.lwdn a
    · have hlo := hin.2.1
      have hofs : dev.lwb * SIZE_BLOCK + (a - (windowBase geo dev + dev.lwb) * SIZE_BLOCK) =
          a - windowBase geo dev * SIZE_BLOCK := by
        rw [Nat.add_mul] at hlo ⊢
        omega
      rw [patch_inside ⟨hin.2.1, by rw [hend]; exact hin.2.2⟩, ← hclean a hin, cached, hofs]
    · rw [patch_outside, h.rest _ _ hin]
      rw [hend]
      exact fun hrange => hin ⟨rfl, hrange⟩
  · show Function.update dev.disk dev.lwdn _ dn a = _
    rw [Function.update_of_ne hdn]
    exact h.rest dn a fun hin => hdn hin.1

theorem Holds.flush (h : Holds geo dev content) (hclean : Clean geo dev content) :
    Holds geo (flush geo dev dev.lwdn) content where
  le := Nat.le_refl 0
  bound := Nat.zero_le _
  track := fun hne => absurd rfl hne
  rest := fun dn a _ => congrFun (congrFun (h.flush_disk hclean) dn) a

/-- A block that does not miss the window falls into it or continues it. -/
theorem window_of_not_misses {dn sb : Nat} (h : ¬missesWcache geo dev dn sb)
    (hne : dev.lwb ≠ dev.lwe) :
    dn = dev.lwdn ∧ (geo dn).cyl sb = dev.lwc ∧ (geo dn).head sb = dev.lwh ∧
      segment BLOCKS_WCACHE ((geo dn).sec sb) = dev.lwp ∧
      dev.lwb ≤ (geo dn).sec sb % BLOCKS_WCACHE + 1 ∧ (geo dn).sec sb % BLOCKS_WCACHE ≤ dev.lwe := by
  simp only [missesWcache, not_and, not_or, Decidable.not_not, Nat.not_lt] at h
  exact h hne

theorem windowBase_of_not_misses {dn sb : Nat} (h : ¬missesWcache geo dev dn sb)
    (hne : dev.lwb ≠ dev.lwe) : windowBase geo dev = (geo dn).segBase BLOCKS_WCACHE sb := by
  obtain ⟨hdn, hc, hh, hp, _⟩ := window_of_not_misses h hne
  rw [windowBase, Geo.segBase, hc, hh, hp, hdn]

@[simp] theorem windowBase_extend (dev : DiskCommon) (dn sb : Nat) :
    windowBase geo (extendWindow geo dev dn sb) = (geo dn).segBase BLOCKS_WCACHE sb := rfl

theorem extend_empty (geo : Nat → Geo) (dn sb : Nat) (hnone : dev.lwb = dev.lwe) :
    (extendWindow geo dev dn sb).lwb = (geo dn).sec sb % BLOCKS_WCACHE ∧
      (extendWindow geo dev dn sb).lwe = (geo dn).sec sb % BLOCKS_WCACHE + 1 :=
  ⟨if_pos hnone, if_pos hnone⟩

theorem extend_window {dn sb : Nat} (hle : dev.lwb ≤ dev.lwe)
    (hready : ¬missesWcache geo dev dn sb) (hne : dev.lwb ≠ dev.lwe) :
    (extendWindow geo dev dn sb).lwb = min dev.lwb ((geo dn).sec sb % BLOCKS_WCACHE) ∧
      (extendWindow geo dev dn sb).lwe = max dev.lwe ((geo dn).sec sb % BLOCKS_WCACHE + 1) := by
  obtain ⟨_, _, _, _, hlo, hhi⟩ := window_of_not_misses hready hne
  refine ⟨(if_neg hne).trans ?_, (if_neg hne).trans ?_⟩
  · split <;> omega
  · split
    · omega
    · split <;> omega

/-- Extending adds just the block to the window. -/
theorem inWindow_extend {dn sb : Nat} (hle : dev.lwb ≤ dev.lwe)
    (hready : ¬missesWcache geo dev dn sb) (dn' a : Nat) :
    InWindow geo (extendWindow geo dev dn sb) dn' a ↔
      InWindow geo dev dn' a ∨ (dn' = dn ∧ sb * SIZE_BLOCK ≤ a ∧ a < (sb + 1) * SIZE_BLOCK) := by
  have hsb := (geo dn).segBase_add BLOCKS_WCACHE sb
  by_cases hnone : dev.lwb = dev.lwe
  · obtain ⟨hlwb, hlwe⟩ := extend_empty geo dn sb hnone
    rw [InWindow, windowBase_extend, hlwb, hlwe, ← Nat.add_assoc, hsb]
    constructor
    · exact Or.inr
    · intro hin
      cases hin with
      | inl hold => exact absurd hold (not_inWindow_of_eq hnone dn' a)
      | inr hnew => exact hnew
  · obtain ⟨hdn, _, _, _, hlo, hhi⟩ := window_of_not_misses hready hnone
    obtain ⟨hlwb, hlwe⟩ := extend_window hle hready hnone
    rw [InWindow, InWindow, windowBase_extend, windowBase_of_not_misses hready hnone, ← hdn, hlwb,
      hlwe]
    generalize (geo dn).sec sb % BLOCKS_WCACHE = b at *
    generalize (geo dn).segBase BLOCKS_WCACHE sb = base at *
    rw [← hsb, SIZE_BLOCK]
    show dn' = dn ∧ _ ↔ _
    omega

/-- The block is in the new window, which stays in the segment and the track. -/
theorem extend_bounds {dn sb : Nat} (h : Holds geo dev content)
    (hready : ¬missesWcache geo dev dn sb) :
    (extendWindow geo dev dn sb).lwb ≤ (geo dn).sec sb % BLOCKS_WCACHE ∧
      (geo dn).sec sb % BLOCKS_WCACHE < (extendWindow geo dev dn sb).lwe ∧
      (extendWindow geo dev dn sb).lwe ≤ BLOCKS_WCACHE ∧
      segment BLOCKS_WCACHE ((geo dn).sec sb) + (extendWindow geo dev dn sb).lwe ≤ (geo dn).secs := by
  have hslot : (geo dn).sec sb % BLOCKS_WCACHE < BLOCKS_WCACHE := Nat.mod_lt _ (by decide)
  have hsec : (geo dn).sec sb < (geo dn).secs := Nat.mod_lt _ (geo dn).secs_pos
  have hsum := Geo.segment_add_mod BLOCKS_WCACHE ((geo dn).sec sb)
  have hbound := h.bound
  by_cases hnone : dev.lwb = dev.lwe
  · obtain ⟨hlwb, hlwe⟩ := extend_empty geo dn sb hnone
    rw [hlwb, hlwe]
    omega
  · obtain ⟨hdn, _, _, hp, hlo, hhi⟩ := window_of_not_misses hready hnone
    have htrack := h.track hnone
    obtain ⟨hlwb, hlwe⟩ := extend_window h.le hready hnone
    rw [← hdn] at htrack
    rw [hlwb, hlwe]
    omega

end Step

section Round
variable {geo : Nat → Geo} {dev : DiskCommon} {content : Nat → Nat → UInt8} {dn sb : Nat}

/-- A round writes the window to the right disk, and only when it is clean. -/
def FlushFits (geo : Nat → Geo) (dev : DiskCommon) (content : Nat → Nat → UInt8) (dn sb : Nat) : Prop :=
  missesWcache geo dev dn sb → dn = dev.lwdn ∧ Clean geo dev content

/-- The device when the block of a round is due. -/
def openWindow (geo : Nat → Geo) (dev : DiskCommon) (dn sb : Nat) : DiskCommon :=
  if missesWcache geo dev dn sb then flush geo dev dn else dev

theorem openWindow_wcache : (openWindow geo dev dn sb).wcache = dev.wcache := by
  rw [openWindow]
  split <;> rfl

theorem openWindow_ready : ¬missesWcache geo (openWindow geo dev dn sb) dn sb := by
  rw [openWindow]
  split
  · exact fun hmiss => hmiss.1 rfl
  · next hready => exact hready

theorem inWindow_open (dn' a : Nat) : InWindow geo (openWindow geo dev dn sb) dn' a ↔
    ¬missesWcache geo dev dn sb ∧ InWindow geo dev dn' a := by
  rw [openWindow]
  split
  · next hmiss =>
    constructor
    · intro hin
      exact absurd hin (not_inWindow_of_eq rfl dn' a)
    · exact fun hin => absurd hmiss hin.1
  · next hready => exact ⟨fun hin => ⟨hready, hin⟩, fun hin => hin.2⟩

theorem Holds.openWindow (h : Holds geo dev content) (hfits : FlushFits geo dev content dn sb) :
    Holds geo (openWindow geo dev dn sb) content := by
  rw [DiskBios.openWindow]
  split
  · next hmiss =>
    obtain ⟨hdn, hclean⟩ := hfits hmiss
    rw [hdn]
    exact h.flush hclean
  · exact h

variable {ofs : Nat} {chunk : List UInt8}

/-- A round adds its block to the window, unless it starts a new one. -/
theorem inWindow_writeBlock (h : Holds geo dev content) (hfits : FlushFits geo dev content dn sb)
    (dn' a : Nat) : InWindow geo (writeBlock geo dev dn sb ofs chunk) dn' a ↔
      (¬missesWcache geo dev dn sb ∧ InWindow geo dev dn' a) ∨
        (dn' = dn ∧ sb * SIZE_BLOCK ≤ a ∧ a < (sb + 1) * SIZE_BLOCK) := by
  rw [← inWindow_open]
  exact inWindow_extend (h.openWindow hfits).le openWindow_ready dn' a

theorem writeBlock_bounds (h : Holds geo dev content) (hfits : FlushFits geo dev content dn sb)
    (ofs : Nat) (chunk : List UInt8) :
    (writeBlock geo dev dn sb ofs chunk).lwb ≤ (geo dn).sec sb % BLOCKS_WCACHE ∧
      (geo dn).sec sb % BLOCKS_WCACHE < (writeBlock geo dev dn sb ofs chunk).lwe ∧
      (writeBlock geo dev dn sb ofs chunk).lwe ≤ BLOCKS_WCACHE ∧
      segment BLOCKS_WCACHE ((geo dn).sec sb) + (writeBlock geo dev dn sb ofs chunk).lwe ≤
        (geo dn).secs := by
  have hbounds := extend_bounds (h.openWindow hfits) openWindow_ready
  exact hbounds

/-- The bytes of the round get into the cache, at the place of their block. -/
theorem cached_writeBlock {a : Nat} (ha : (geo dn).segBase BLOCKS_WCACHE sb * SIZE_BLOCK ≤ a) :
    cached (writeBlock geo dev dn sb ofs chunk) ((geo dn).segBase BLOCKS_WCACHE sb) a =
      overlay (cached dev ((geo dn).segBase BLOCKS_WCACHE sb)) (sb * SIZE_BLOCK + ofs) chunk a := by
  have hsb := (geo dn).segBase_add BLOCKS_WCACHE sb
  have hwcache : (writeBlock geo dev dn sb ofs chunk).wcache =
      overlay dev.wcache ((geo dn).sec sb % BLOCKS_WCACHE * SIZE_BLOCK + ofs) chunk := by
    show overlay (openWindow geo dev dn sb).wcache _ chunk = _
    rw [openWindow_wcache]
  have hmul := congrArg (· * SIZE_BLOCK) hsb
  simp only [Nat.add_mul] at hmul
  rw [cached, hwcache, ← hmul]
  simp only [overlay, cached]
  have hle : (geo dn).sec sb % BLOCKS_WCACHE * SIZE_BLOCK + ofs ≤
      a - (geo dn).segBase BLOCKS_WCACHE sb * SIZE_BLOCK ↔
      (geo dn).segBase BLOCKS_WCACHE sb * SIZE_BLOCK +
        (geo dn).sec sb % BLOCKS_WCACHE * SIZE_BLOCK + ofs ≤ a := by omega
  have hsub : a - (geo dn).segBase BLOCKS_WCACHE sb * SIZE_BLOCK -
      ((geo dn).sec sb % BLOCKS_WCACHE * SIZE_BLOCK + ofs) =
      a - ((geo dn).segBase BLOCKS_WCACHE sb * SIZE_BLOCK +
        (geo dn).sec sb % BLOCKS_WCACHE * SIZE_BLOCK + ofs) := by omega
  simp only [hle, hsub]

/-- A round leaves the disks with the content outside the window. -/
theorem Holds.writeBlock (h : Holds geo dev content) (hfits : FlushFits geo dev content dn sb)
    (hchunk : ofs + chunk.length ≤ SIZE_BLOCK) :
    Holds geo (writeBlock geo dev dn sb ofs chunk)
      (put content dn (sb * SIZE_BLOCK + ofs) chunk) := by
  obtain ⟨hlo, hhi, hbound, htrack⟩ := writeBlock_bounds h hfits ofs chunk
  refine ⟨by omega, hbound, fun _ => htrack, fun dn' a hout => ?_⟩
  rw [inWindow_writeBlock h hfits, not_or] at hout
  have hdisk := (h.openWindow hfits).rest dn' a
    (fun hin => hout.1 ((inWindow_open dn' a).mp hin))
  by_cases hdn : dn' = dn
  · rw [hdn, put_self]
    have hblock := hout.2
    rw [hdn] at hdisk
    refine hdisk.trans ?_
    by_cases hlt : a < sb * SIZE_BLOCK + ofs
    · exact (overlay_of_lt _ _ _ hlt).symm
    · rw [overlay_of_ge]
      rw [Nat.add_mul] at hblock
      omega
  · rw [put_of_ne hdn]
    exact hdisk

end Round

end Plo.Devices.DiskBios
