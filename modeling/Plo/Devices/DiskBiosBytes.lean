import Plo.Base.Run
import Plo.Devices.DiskBiosWrites

/-!
One disk as a store of bytes. The window is never filled from the disk, so that the
bytes of its blocks that no write gave are lost when it is written back; and the
segment kept for reading is never given up when the disk changes under it.
-/
namespace Plo.Devices.DiskBios

section Read
variable {geo : Nat → Geo} {dev : DiskCommon} {dn : Nat}

/-- Of the range, the bytes in the segment kept for reading, if this is where the
range starts, are those of the disk. -/
def ReadFits (geo : Nat → Geo) (dev : DiskCommon) (dn offs len : Nat) : Prop :=
  ¬missesRcache geo dev dn (startBlock offs) → ∀ a, offs ≤ a → a < offs + len →
    (geo dn).segBase BLOCKS_RCACHE (startBlock a) =
      (geo dn).segBase BLOCKS_RCACHE (startBlock offs) →
    dev.rcache (a - (geo dn).segBase BLOCKS_RCACHE (startBlock offs) * SIZE_BLOCK) = dev.disk dn a

theorem not_missesRcache {sb : Nat} : ¬missesRcache geo dev dn sb ↔
    dn = dev.lrdn ∧ (geo dn).cyl sb = dev.lrc ∧ (geo dn).head sb = dev.lrh ∧
      segment BLOCKS_RCACHE ((geo dn).sec sb) = dev.lrp := by
  simp only [missesRcache, not_or, Decidable.not_not]

theorem cacheSegment_ready (sb : Nat) : ¬missesRcache geo (cacheSegment geo dev dn sb) dn sb := by
  rw [cacheSegment]
  split
  · exact not_missesRcache.mpr ⟨rfl, rfl, rfl, rfl⟩
  · next hready => exact hready

theorem cacheSegment_disk (sb : Nat) : (cacheSegment geo dev dn sb).disk = dev.disk := by
  rw [cacheSegment]
  split <;> rfl

/-- The place of a block in its segment is one that was read with the segment. -/
theorem Geo.slot_lt (g : Geo) {blocks x sb : Nat} (hblocks : 0 < blocks)
    (h : g.segBase blocks x = g.segBase blocks sb) :
    g.sec x % blocks < min blocks (g.secs - segment blocks (g.sec sb)) := by
  have hsecs := g.secs_pos
  have hseg : ∀ y, segment blocks (g.sec y) = g.segBase blocks y % g.secs := by
    intro y
    have hsum := segment_add_mod blocks (g.sec y)
    have hlt : g.sec y < g.secs := Nat.mod_lt _ hsecs
    rw [segBase, Nat.mul_comm, Nat.mul_add_mod, Nat.mod_eq_of_lt (by omega)]
  have hsum := segment_add_mod blocks (g.sec x)
  have hlt : g.sec x < g.secs := Nat.mod_lt _ hsecs
  have hmod := Nat.mod_lt (g.sec x) hblocks
  rw [hseg sb, ← h, ← hseg x]
  omega

/-- A segment just read has the bytes of the disk. -/
theorem loadSegment_rcache {sb a : Nat}
    (hseg : (geo dn).segBase BLOCKS_RCACHE (startBlock a) = (geo dn).segBase BLOCKS_RCACHE sb) :
    (loadSegment geo dev dn sb).rcache (a - (geo dn).segBase BLOCKS_RCACHE sb * SIZE_BLOCK) =
      dev.disk dn a := by
  have hslot := (geo dn).slot_lt (by decide) hseg
  have hsum := (geo dn).segBase_add BLOCKS_RCACHE (startBlock a)
  have ha : startBlock a * SIZE_BLOCK + a % SIZE_BLOCK = a := startBlock_add_mod a
  have hofs : a % SIZE_BLOCK < SIZE_BLOCK := Nat.mod_lt _ (by decide)
  have hmul := Nat.mul_le_mul_right SIZE_BLOCK (Nat.succ_le_of_lt hslot)
  rw [← hsum, hseg, Nat.add_mul] at ha
  rw [Nat.succ_mul] at hmul
  have hblock : (geo dn).block ((geo dn).cyl sb) ((geo dn).head sb)
      (segment BLOCKS_RCACHE ((geo dn).sec sb) + 1) = (geo dn).segBase BLOCKS_RCACHE sb := rfl
  have hrange : 0 ≤ a - (geo dn).segBase BLOCKS_RCACHE sb * SIZE_BLOCK ∧
      a - (geo dn).segBase BLOCKS_RCACHE sb * SIZE_BLOCK < 0 +
        min BLOCKS_RCACHE ((geo dn).secs - segment BLOCKS_RCACHE ((geo dn).sec sb)) * SIZE_BLOCK := by
    omega
  have hback : (geo dn).segBase BLOCKS_RCACHE sb * SIZE_BLOCK +
      (a - (geo dn).segBase BLOCKS_RCACHE sb * SIZE_BLOCK - 0) = a := by omega
  simp only [loadSegment, accessRead]
  rw [patch_inside hrange, hblock, hback]

/-- Whether the range fits does not change when its first segment is cached. -/
theorem readFits_cacheSegment (offs len : Nat) :
    ReadFits geo (cacheSegment geo dev dn (startBlock offs)) dn offs len ↔
      ReadFits geo dev dn offs len := by
  rw [cacheSegment]
  split
  · next hmiss =>
    constructor
    · exact fun _ hready => absurd hmiss hready
    · intro _ _ a _ _ hseg
      exact loadSegment_rcache hseg
  · exact Iff.rfl

/-- The block behind the last one of a cached segment is in no cached segment. -/
theorem missesRcache_next {block : Nat} (hready : ¬missesRcache geo dev dn block)
    (hother : (geo dn).segBase BLOCKS_RCACHE (block + 1) = block + 1) :
    missesRcache geo dev dn (block + 1) := by
  have hle := (geo dn).segBase_le BLOCKS_RCACHE block
  by_contra hsame
  rw [not_missesRcache] at hsame hready
  have hbase : (geo dn).segBase BLOCKS_RCACHE (block + 1) =
      (geo dn).segBase BLOCKS_RCACHE block := by
    rw [Geo.segBase, Geo.segBase, hsame.2.1, hsame.2.2.1, hsame.2.2.2, hready.2.1,
      hready.2.2.1, hready.2.2.2]
  omega

/-- With its first segment cached, a range fits when the part in the first block
does and the rest does. -/
theorem readFits_split {offs size len : Nat} (hready : ¬missesRcache geo dev dn (startBlock offs))
    (hnext : offs + size = (startBlock offs + 1) * SIZE_BLOCK) (hsize : size ≤ len) :
    ReadFits geo dev dn offs len ↔
      (∀ a, offs ≤ a → a < offs + size →
        dev.rcache (a - (geo dn).segBase BLOCKS_RCACHE (startBlock offs) * SIZE_BLOCK) =
          dev.disk dn a) ∧
      ReadFits geo dev dn (offs + size) (len - size) := by
  have hsame : ∀ a, offs ≤ a → a < offs + size → startBlock a = startBlock offs := by
    intro a hlo hhi
    have hoffs := startBlock_add_mod offs
    exact Nat.div_eq_of_lt_le (by omega) (by omega)
  have hstart : startBlock (offs + size) = startBlock offs + 1 := by
    rw [hnext]
    exact Nat.mul_div_cancel _ (by decide)
  cases (geo dn).segBase_succ BLOCKS_RCACHE (startBlock offs) (by decide) with
  | inl hseg =>
      obtain ⟨hc, hh, hp, hbase⟩ := hseg
      have hready' : ¬missesRcache geo dev dn (startBlock offs + 1) := by
        rw [not_missesRcache] at hready ⊢
        rw [hc, hh, hp]
        exact hready
      simp only [ReadFits, hready, hready', not_false_eq_true, true_implies, hstart, hbase]
      constructor
      · intro h
        refine ⟨fun a hlo hhi => h a hlo (by omega) (by rw [hsame a hlo hhi]), fun a hlo hhi hseg => ?_⟩
        exact h a (by omega) (by omega) hseg
      · intro h a hlo hhi hseg
        by_cases hlt : a < offs + size
        · exact h.1 a hlo hlt
        · exact h.2 a (by omega) (by omega) hseg
  | inr hother =>
      have hle := (geo dn).segBase_le BLOCKS_RCACHE (startBlock offs)
      have hmiss : missesRcache geo dev dn (startBlock (offs + size)) := by
        rw [hstart]
        exact missesRcache_next hready hother.1
      have hrest : ReadFits geo dev dn (offs + size) (len - size) := fun h => absurd hmiss h
      rw [and_iff_left hrest]
      simp only [ReadFits, hready, not_false_eq_true, true_implies]
      constructor
      · intro h a hlo hhi
        exact h a hlo (by omega) (by rw [hsame a hlo hhi])
      · intro h a hlo _ hseg
        refine h a hlo ?_
        by_contra hge
        have hblock : startBlock offs + 1 ≤ startBlock a := by
          rw [← hstart]
          exact Nat.div_le_div_right (by omega)
        have hmono := (geo dn).segBase_mono BLOCKS_RCACHE (by decide) (startBlock offs + 1)
          (startBlock a - (startBlock offs + 1))
        rw [Nat.add_sub_cancel' hblock] at hmono
        omega

/-- The bytes of a block taken from the cache are those of the disk. -/
theorem slice_rcache_iff {rcache disk : Nat → UInt8} (g : Geo) {offs size : Nat} :
    slice rcache (g.sec (startBlock offs) % BLOCKS_RCACHE * SIZE_BLOCK + offs % SIZE_BLOCK) size =
        slice disk offs size ↔
      ∀ a, offs ≤ a → a < offs + size →
        rcache (a - g.segBase BLOCKS_RCACHE (startBlock offs) * SIZE_BLOCK) = disk a := by
  have hsum := g.segBase_add BLOCKS_RCACHE (startBlock offs)
  have hoffs := startBlock_add_mod offs
  rw [← hsum, Nat.add_mul] at hoffs
  rw [slice_eq_iff]
  constructor
  · intro h a hlo hhi
    have hofs := h (a - offs) (by omega)
    have hslot : g.sec (startBlock offs) % BLOCKS_RCACHE * SIZE_BLOCK + offs % SIZE_BLOCK +
        (a - offs) = a - g.segBase BLOCKS_RCACHE (startBlock offs) * SIZE_BLOCK := by omega
    rw [hslot, Nat.add_sub_cancel' hlo] at hofs
    exact hofs
  · intro h i hi
    have ha := h (offs + i) (Nat.le_add_right _ _) (by omega)
    have hslot : offs + i - g.segBase BLOCKS_RCACHE (startBlock offs) * SIZE_BLOCK =
        g.sec (startBlock offs) % BLOCKS_RCACHE * SIZE_BLOCK + offs % SIZE_BLOCK + i := by omega
    rw [hslot] at ha
    exact ha

theorem readLoop_iff (k : Nat) {offs len : Nat} (hpos : 0 < len)
    (hlast : (offs + len - 1) / SIZE_BLOCK = startBlock offs + k) (hfits : offs + len ≤ 2 ^ 32) :
    (readLoop geo dn (k + 1) dev (startBlock offs) offs len).2 = slice (dev.disk dn) offs len ↔
      ReadFits geo dev dn offs len := by
  induction k generalizing dev offs len with
  | zero =>
      have hbounds := end_bounds hlast
      have hoffs := startBlock_add_mod offs
      have hsame : ∀ a, offs ≤ a → a < offs + len → startBlock a = startBlock offs := by
        intro a hlo hhi
        exact Nat.div_eq_of_lt_le (by omega) (by rw [Nat.add_mul]; omega)
      have hread : (readLoop geo dn 1 dev (startBlock offs) offs len).2 =
          slice (cacheSegment geo dev dn (startBlock offs)).rcache
            ((geo dn).sec (startBlock offs) % BLOCKS_RCACHE * SIZE_BLOCK + offs % SIZE_BLOCK) len := by
        simp only [readLoop, if_true, List.append_nil]
      rw [hread, slice_rcache_iff, ← readFits_cacheSegment]
      simp only [ReadFits, cacheSegment_ready, not_false_eq_true, true_implies, cacheSegment_disk]
      constructor
      · exact fun h a hlo hhi _ => h a hlo hhi
      · exact fun h a hlo hhi => h a hlo hhi (by rw [hsame a hlo hhi])
  | succ k ih =>
      have hofs : offs % SIZE_BLOCK < SIZE_BLOCK := Nat.mod_lt _ (by decide)
      have hoffs := startBlock_add_mod offs
      have hbounds := end_bounds hlast
      rw [Nat.add_mul k] at hbounds
      have hlen : SIZE_BLOCK - offs % SIZE_BLOCK < len := by omega
      have hnext : offs + (SIZE_BLOCK - offs % SIZE_BLOCK) = (startBlock offs + 1) * SIZE_BLOCK := by
        rw [Nat.add_mul]
        omega
      have hstart : startBlock (offs + (SIZE_BLOCK - offs % SIZE_BLOCK)) = startBlock offs + 1 := by
        rw [hnext]
        exact Nat.mul_div_cancel _ (by decide)
      have hend : offs + (SIZE_BLOCK - offs % SIZE_BLOCK) + (len - (SIZE_BLOCK - offs % SIZE_BLOCK)) =
          offs + len := by omega
      have hrest := @ih (cacheSegment geo dev dn (startBlock offs))
        (offs + (SIZE_BLOCK - offs % SIZE_BLOCK)) (len - (SIZE_BLOCK - offs % SIZE_BLOCK)) (by omega)
        (by rw [hend, hlast, hstart]; omega) (by rw [hend]; exact hfits)
      rw [hstart, cacheSegment_disk] at hrest
      have hdisk : slice (dev.disk dn) offs len =
          slice (dev.disk dn) offs (SIZE_BLOCK - offs % SIZE_BLOCK) ++
            slice (dev.disk dn) (offs + (SIZE_BLOCK - offs % SIZE_BLOCK))
              (len - (SIZE_BLOCK - offs % SIZE_BLOCK)) := by
        rw [← slice_add, Nat.add_sub_cancel' (Nat.le_of_lt hlen)]
      rw [readLoop, if_neg (Nat.succ_ne_zero k), Nat.mod_eq_of_lt (by omega), hdisk,
        slice_append_iff, hrest, slice_rcache_iff, ← readFits_cacheSegment offs len,
        readFits_split (cacheSegment_ready _) hnext (Nat.le_of_lt hlen), cacheSegment_disk]

/-- What a read returns is on the disk, exactly when the range fits. -/
theorem diskbiosRead_iff {minor offs len : Nat} (hget : diskbiosGet minor = some dn)
    (hfits : offs + len ≤ 2 ^ 32) :
    (diskbiosRead geo dev minor offs len).2.1 = slice (dev.disk dn) offs len ↔
      ReadFits geo dev dn offs len := by
  rw [diskbiosRead, hget]
  by_cases hlen : len = 0
  · rw [hlen]
    constructor
    · intro _ _ a hlo hhi
      exact absurd hhi (Nat.not_lt.mpr hlo)
    · exact fun _ => rfl
  · have hpos : 0 < len := by omega
    obtain ⟨k, hk⟩ := Nat.exists_eq_add_of_le (startBlock_le_endBlock hpos hfits)
    have hcount : startBlock offs + k + 1 - startBlock offs = k + 1 := by omega
    simp only [if_neg hlen, hk, hcount]
    exact readLoop_iff k hpos (by rw [← endBlock_eq hfits, hk]) hfits

/-- The devices differ in what is kept for reading only. -/
structure SameWindow (dev dev' : DiskCommon) : Prop where
  disk : dev'.disk = dev.disk
  wcache : dev'.wcache = dev.wcache
  lwdn : dev'.lwdn = dev.lwdn
  lwc : dev'.lwc = dev.lwc
  lwh : dev'.lwh = dev.lwh
  lwp : dev'.lwp = dev.lwp
  lwb : dev'.lwb = dev.lwb
  lwe : dev'.lwe = dev.lwe

theorem cacheSegment_sameWindow (sb : Nat) : SameWindow dev (cacheSegment geo dev dn sb) := by
  rw [cacheSegment]
  split
  · exact ⟨rfl, rfl, rfl, rfl, rfl, rfl, rfl, rfl⟩
  · exact ⟨rfl, rfl, rfl, rfl, rfl, rfl, rfl, rfl⟩

theorem SameWindow.trans {dev₁ dev₂ : DiskCommon} (h₁ : SameWindow dev dev₁)
    (h₂ : SameWindow dev₁ dev₂) : SameWindow dev dev₂ :=
  ⟨h₂.disk.trans h₁.disk, h₂.wcache.trans h₁.wcache, h₂.lwdn.trans h₁.lwdn, h₂.lwc.trans h₁.lwc,
    h₂.lwh.trans h₁.lwh, h₂.lwp.trans h₁.lwp, h₂.lwb.trans h₁.lwb, h₂.lwe.trans h₁.lwe⟩

theorem readLoop_sameWindow (k : Nat) (sb offs len : Nat) :
    SameWindow dev (readLoop geo dn k dev sb offs len).1 := by
  induction k generalizing dev sb offs len with
  | zero => exact ⟨rfl, rfl, rfl, rfl, rfl, rfl, rfl, rfl⟩
  | succ k ih => exact (cacheSegment_sameWindow sb).trans (ih _ _ _)

theorem diskbiosRead_sameWindow (minor offs len : Nat) :
    SameWindow dev (diskbiosRead geo dev minor offs len).1 := by
  rw [diskbiosRead]
  split
  · exact ⟨rfl, rfl, rfl, rfl, rfl, rfl, rfl, rfl⟩
  · split
    · exact ⟨rfl, rfl, rfl, rfl, rfl, rfl, rfl, rfl⟩
    · exact readLoop_sameWindow _ _ _ _

section Same
variable {dev' : DiskCommon} {content : Nat → Nat → UInt8}

theorem SameWindow.windowBase (h : SameWindow dev dev') : windowBase geo dev' = windowBase geo dev := by
  rw [DiskBios.windowBase, DiskBios.windowBase, h.lwdn, h.lwc, h.lwh, h.lwp]

theorem SameWindow.inWindow (h : SameWindow dev dev') (dn a : Nat) :
    InWindow geo dev' dn a ↔ InWindow geo dev dn a := by
  rw [InWindow, InWindow, h.windowBase, h.lwdn, h.lwb, h.lwe]

theorem SameWindow.right (h : SameWindow dev dev') {a : Nat} (hr : Right geo dev content dn a) :
    Right geo dev' content dn a := by
  refine ⟨(h.inWindow dn a).mpr hr.1, ?_⟩
  rw [h.windowBase, cached, h.wcache]
  exact hr.2

theorem SameWindow.holds (h : SameWindow dev dev') (hh : Holds geo dev content) :
    Holds geo dev' content where
  le := by rw [h.lwb, h.lwe]; exact hh.le
  bound := by rw [h.lwe]; exact hh.bound
  track := by rw [h.lwb, h.lwe, h.lwp, h.lwdn]; exact hh.track
  rest := fun dn a hout => by
    rw [h.disk]
    exact hh.rest dn a fun hin => hout ((h.inWindow dn a).mpr hin)

end Same

end Read

inductive ByteCall
  | write (offs : Nat) (data : List UInt8)
  | read (offs len : Nat)
  | sync

/-- The device with one of its disks in use, with what the calls so far make of the
disk, and the bytes of the window that writes gave since it was started. -/
structure ByteSession where
  dev : DiskCommon
  content : Nat → UInt8
  given : Nat → Prop

namespace ByteSession
variable (geo : Nat → Geo) (minor : Nat)

def init (disk : Nat → Nat → UInt8) (rcache wcache : Nat → UInt8) : ByteSession :=
  ⟨diskbiosRegister disk rcache wcache, disk (diskNumber minor), fun _ => False⟩

def step (s : ByteSession) : ByteCall → ByteSession
  | .write offs data =>
    let dev := (diskbiosWrite geo s.dev minor offs data).1
    { dev := dev
      content := overlay s.content offs data
      given := fun a =>
        if data = [] then s.given a
        else InWindow geo dev (diskNumber minor) a ∧ ((offs ≤ a ∧ a < offs + data.length) ∨
          (¬missesWcache geo s.dev (diskNumber minor) (startBlock offs) ∧ s.given a)) }
  | .read offs len => { s with dev := (diskbiosRead geo s.dev minor offs len).1 }
  | .sync => { s with dev := (diskbiosSync geo s.dev minor).1, given := fun _ => False }

/-- Writes gave every byte of the window. -/
def Covered (s : ByteSession) : Prop := ∀ a, InWindow geo s.dev (diskNumber minor) a → s.given a

/-- Whenever a call writes the window back, the window is covered: at the end of a
run of blocks, before a write that does not continue it, and when a write leaves
the segment, for the bytes before the write. -/
def Fits (s : ByteSession) : ByteCall → Prop
  | .write offs data =>
    offs + data.length ≤ 2 ^ 32 ∧ (data ≠ [] →
      (missesWcache geo s.dev (diskNumber minor) (startBlock offs) → s.Covered geo minor) ∧
      ((geo (diskNumber minor)).segBase BLOCKS_WCACHE (endBlock offs data.length) ≠
          (geo (diskNumber minor)).segBase BLOCKS_WCACHE (startBlock offs) →
        ∀ a, a < offs →
          startBlock offs * SIZE_BLOCK ≤ a ∨
            (¬missesWcache geo s.dev (diskNumber minor) (startBlock offs) ∧
              InWindow geo s.dev (diskNumber minor) a) →
          ¬missesWcache geo s.dev (diskNumber minor) (startBlock offs) ∧ s.given a))
  | .read _ _ => True
  | .sync => s.Covered geo minor

/-- The invariant of the runs, from the first content of the disks. -/
structure Coherent (disk : Nat → Nat → UInt8) (s : ByteSession) : Prop where
  holds : Holds geo s.dev (Function.update disk (diskNumber minor) s.content)
  lwdn : s.dev.lwb ≠ s.dev.lwe → diskNumber minor = s.dev.lwdn
  given : ∀ a, s.given a →
    Right geo s.dev (Function.update disk (diskNumber minor) s.content) (diskNumber minor) a

section Run
variable {geo minor} {disk : Nat → Nat → UInt8} {s : ByteSession}

theorem init_coherent (disk : Nat → Nat → UInt8) (rcache wcache : Nat → UInt8) :
    Coherent geo minor disk (init minor disk rcache wcache) where
  holds := by
    refine ⟨Nat.le_refl 0, Nat.zero_le _, fun hne => absurd rfl hne, fun dn a _ => ?_⟩
    rw [init, Function.update_eq_self]
    rfl
  lwdn := fun hne => absurd rfl hne
  given := fun _ hgiven => hgiven.elim

theorem Coherent.clean (h : s.Coherent geo minor disk) (hcov : s.Covered geo minor) :
    Clean geo s.dev (Function.update disk (diskNumber minor) s.content) := by
  intro a hin
  have hdn := h.lwdn fun hnone => not_inWindow_of_eq hnone _ a hin
  rw [← hdn] at hin ⊢
  exact (h.given a (hcov a hin)).2

theorem Coherent.writeFits (h : s.Coherent geo minor disk) {offs : Nat} {data : List UInt8}
    (hne : data ≠ []) (hfits : s.Fits geo minor (.write offs data)) :
    WriteFits geo s.dev (Function.update disk (diskNumber minor) s.content) (diskNumber minor) offs
      (endBlock offs data.length) := by
  obtain ⟨hflush, hcross⟩ := hfits.2 hne
  constructor
  · intro hmiss
    exact ⟨h.lwdn hmiss.1, h.clean (hflush hmiss)⟩
  · intro hseg a ha hdue
    obtain ⟨hready, hgiven⟩ := hcross hseg a ha hdue
    have hright := h.given a hgiven
    have hnone := fun hnone => not_inWindow_of_eq hnone _ a hright.1
    rw [← windowBase_of_not_misses hready hnone]
    exact hright.2

theorem Coherent.write (h : s.Coherent geo minor disk) (hminor : minor < DISKBIOS_MAX_CNT)
    {offs : Nat} {data : List UInt8} (hfits : s.Fits geo minor (.write offs data)) :
    (s.step geo minor (.write offs data)).Coherent geo minor disk := by
  have hget : diskbiosGet minor = some (diskNumber minor) := if_neg (Nat.not_le.mpr hminor)
  by_cases hne : data = []
  · have hwrite : diskbiosWrite geo s.dev minor offs [] = (s.dev, 0) := by
      rw [diskbiosWrite, hget]
      rfl
    simp only [step, hne, hwrite, overlay_nil, if_true]
    exact h
  · obtain ⟨dev', hwrite, hwrote⟩ := h.holds.diskbiosWrite hget hne hfits.1 (h.writeFits hne hfits)
    have hput : put (Function.update disk (diskNumber minor) s.content) (diskNumber minor) offs data =
        Function.update disk (diskNumber minor) (overlay s.content offs data) := by
      rw [put, Function.update_self, Function.update_idem]
    have hholds := hwrote.holds
    rw [hput] at hholds
    simp only [step, hwrite, if_neg hne]
    refine ⟨hholds, fun _ => hwrote.lwdn.symm, fun a hgiven => ?_⟩
    have hright := hwrote.right a hgiven.1
    rw [hput] at hright
    exact hright (hgiven.2.imp_right fun hold => ⟨hold.1, h.given a hold.2⟩)

theorem given_write {offs : Nat} {data : List UInt8} (hne : data ≠ []) (a : Nat) :
    (s.step geo minor (.write offs data)).given a ↔
      InWindow geo (s.step geo minor (.write offs data)).dev (diskNumber minor) a ∧
        ((offs ≤ a ∧ a < offs + data.length) ∨
          (¬missesWcache geo s.dev (diskNumber minor) (startBlock offs) ∧ s.given a)) := by
  simp only [step, if_neg hne]

theorem Coherent.read (h : s.Coherent geo minor disk) (offs len : Nat) :
    (s.step geo minor (.read offs len)).Coherent geo minor disk := by
  have hsame : SameWindow s.dev (diskbiosRead geo s.dev minor offs len).1 :=
    diskbiosRead_sameWindow minor offs len
  refine ⟨hsame.holds h.holds, ?_, fun a hgiven => hsame.right (h.given a hgiven)⟩
  show (diskbiosRead geo s.dev minor offs len).1.lwb ≠ (diskbiosRead geo s.dev minor offs len).1.lwe →
    diskNumber minor = (diskbiosRead geo s.dev minor offs len).1.lwdn
  rw [hsame.lwb, hsame.lwe, hsame.lwdn]
  exact h.lwdn

theorem Coherent.sync (h : s.Coherent geo minor disk) (hminor : minor < DISKBIOS_MAX_CNT)
    (hcov : s.Covered geo minor) :
    (s.step geo minor .sync).Coherent geo minor disk ∧
      (diskbiosSync geo s.dev minor).1.disk (diskNumber minor) = s.content := by
  have hget : diskbiosGet minor = some (diskNumber minor) := if_neg (Nat.not_le.mpr hminor)
  obtain ⟨hholds, _, hdone⟩ := h.holds.sync (h.clean hcov) hget
  have hnone := hdone ((Decidable.em (s.dev.lwb = s.dev.lwe)).imp_right h.lwdn)
  refine ⟨⟨hholds, fun hne => absurd hnone hne, fun _ hgiven => hgiven.elim⟩, ?_⟩
  rw [hholds.disk_eq hnone, Function.update_self]

theorem coherent_of_run (hminor : minor < DISKBIOS_MAX_CNT) {rcache wcache : Nat → UInt8}
    (hrun : Reachable (step geo minor) (Fits geo minor) (init minor disk rcache wcache) s) :
    s.Coherent geo minor disk := by
  refine hrun.invariant (init_coherent disk rcache wcache) fun s call hs hfits => ?_
  cases call with
  | write offs data => exact hs.write hminor hfits
  | read offs len => exact hs.read offs len
  | sync => exact (hs.sync hminor hfits).1

end Run

end ByteSession

/-- In every run that writes only covered windows back, a synchronisation with the
window covered leaves the disk with the first content and the writes over it, and
a read right after it returns that content exactly when the segment kept for
reading agrees with the disk. -/
theorem covered_runs_are_a_byte_store (geo : Nat → Geo) (minor : Nat)
    (hminor : minor < DISKBIOS_MAX_CNT) (disk : Nat → Nat → UInt8) (rcache wcache : Nat → UInt8)
    (s : ByteSession)
    (hrun : Reachable (ByteSession.step geo minor) (ByteSession.Fits geo minor)
      (.init minor disk rcache wcache) s) (hcov : s.Covered geo minor) :
    (diskbiosSync geo s.dev minor).1.disk (diskNumber minor) = s.content ∧
      ∀ offs len, offs + len ≤ 2 ^ 32 →
        ((diskbiosRead geo (diskbiosSync geo s.dev minor).1 minor offs len).2.1 =
            slice s.content offs len ↔
          ReadFits geo (diskbiosSync geo s.dev minor).1 (diskNumber minor) offs len) := by
  have h := ByteSession.coherent_of_run hminor hrun
  have hdisk := (h.sync hminor hcov).2
  refine ⟨hdisk, fun offs len hfits => ?_⟩
  rw [← hdisk]
  exact diskbiosRead_iff (if_neg (Nat.not_le.mpr hminor)) hfits

/-- Two writes that make up a block. -/
theorem covered_runs_are_a_byte_store_halves :
    let s := ((ByteSession.init 1 (fun _ _ => 7) (fun _ => 0) (fun _ => 0)).step (fun _ => largeDisk) 1
      (.write 0 (List.replicate 0x100 1))).step (fun _ => largeDisk) 1
      (.write 0x100 (List.replicate 0x100 2))
    (diskbiosSync (fun _ => largeDisk) s.dev 1).1.disk (diskNumber 1) = s.content := by
  intro s
  have hne : ∀ b : UInt8, List.replicate 0x100 b ≠ [] := fun b =>
    List.ne_nil_of_length_pos (by rw [List.length_replicate]; decide)
  have hrun : Reachable (ByteSession.step (fun _ => largeDisk) 1)
      (ByteSession.Fits (fun _ => largeDisk) 1) (.init 1 (fun _ _ => 7) (fun _ => 0) (fun _ => 0)) s := by
    refine .step (.step .init ⟨by rw [List.length_replicate]; decide, fun _ => ⟨fun hmiss => ?_, ?_⟩⟩)
      ⟨by rw [List.length_replicate]; decide, fun _ => ⟨fun hmiss => ?_, ?_⟩⟩
    · exact absurd rfl hmiss.1
    · rw [List.length_replicate]
      exact fun hcross => absurd rfl hcross
    · exact absurd hmiss (by decide +kernel)
    · rw [List.length_replicate]
      exact fun hcross => absurd rfl hcross
  have hgiven : ∀ a, InWindow (fun _ => largeDisk) s.dev (diskNumber 1) a → a < 0x200 →
      s.given a := by
    intro a hin hlt
    refine (ByteSession.given_write (hne 2) a).mpr ⟨hin, ?_⟩
    rw [List.length_replicate]
    by_cases hlate : 0x100 ≤ a
    · exact Or.inl ⟨hlate, hlt⟩
    · refine Or.inr ⟨by decide +kernel, (ByteSession.given_write (hne 1) a).mpr ⟨?_, Or.inl ?_⟩⟩
      · refine ⟨by decide +kernel, Nat.le_trans ?_ (Nat.zero_le a), Nat.lt_of_lt_of_le hlt ?_⟩
        · decide +kernel
        · decide +kernel
      · rw [List.length_replicate]
        exact ⟨Nat.zero_le a, Nat.lt_of_not_le hlate⟩
  have hend : (windowBase (fun _ => largeDisk) s.dev + s.dev.lwe) * SIZE_BLOCK ≤ 0x200 := by
    decide +kernel
  have hcov : s.Covered (fun _ => largeDisk) 1 := by
    clear_value s
    intro a hin
    exact hgiven a hin (Nat.lt_of_lt_of_le hin.2.2 hend)
  exact (covered_runs_are_a_byte_store (fun _ => largeDisk) 1 (by decide) _ _ _ s hrun hcov).1

/-- A byte written alone takes the rest of its block from the cache, whatever is
there; and what was read before a write is read again after it. -/
theorem bytes_lost_and_stale :
    (let s := (ByteSession.init 1 (fun _ _ => 7) (fun _ => 0) (fun _ => 0)).step (fun _ => largeDisk) 1
        (.write 0 [1])
    (diskbiosSync (fun _ => largeDisk) s.dev 1).1.disk 0x80 1 ≠ s.content 1) ∧
    (let s := ((ByteSession.init 1 (fun _ _ => 7) (fun _ => 0) (fun _ => 0)).step (fun _ => largeDisk) 1
        (.read 0 1)).step (fun _ => largeDisk) 1 (.write 0 (List.replicate 0x200 1))
    (diskbiosRead (fun _ => largeDisk) (diskbiosSync (fun _ => largeDisk) s.dev 1).1 1 0 1).2.1 ≠
        slice s.content 0 1) := by
  decide +kernel

end Plo.Devices.DiskBios
