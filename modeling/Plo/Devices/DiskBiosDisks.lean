import Plo.Base.Run
import Plo.Devices.DiskBiosWrites

/-!
Writing whole blocks to several disks. The driver decides from the disk of the
window whether the window has to be written back, but writes it to the disk of
the call. Runs that go on to another disk only while there is no window are
right.
-/
namespace Plo.Devices.DiskBios

/-- All blocks transferred up to now and all blocks of the window are among the
written ones. -/
structure Sourced (dev : DiskCommon) (written : List BlockWrite) : Prop where
  le : dev.lwb ≤ dev.lwe
  transfers : dev.transfers ⊆ written
  window : ∀ b, dev.lwb ≤ b → b < dev.lwe →
    ⟨dev.lwdn, dev.lwc, dev.lwh, dev.lwp + b + 1, slice dev.wcache (b * SIZE_BLOCK) SIZE_BLOCK⟩ ∈
      written

/-- The write of one block. -/
def blockWrite (g : Geo) (dn sb : Nat) (data : List UInt8) : BlockWrite :=
  ⟨dn, g.cyl sb, g.head sb, g.sec sb + 1, data⟩

/-- The writes of single blocks that a call stands for. -/
def blockWrites (g : Geo) (dn offs : Nat) (data : List UInt8) : List BlockWrite :=
  (List.range (data.length / SIZE_BLOCK)).map fun i =>
    blockWrite g dn (startBlock offs + i) ((data.drop (i * SIZE_BLOCK)).take SIZE_BLOCK)

section Sourced
variable {geo : Nat → Geo} {dev : DiskCommon} {written : List BlockWrite} {dn sb : Nat}

theorem Sourced.mono (h : Sourced dev written) {more : List BlockWrite} (hle : written ⊆ more) :
    Sourced dev more :=
  ⟨h.le, fun _ ht => hle (h.transfers ht), fun b hlo hhi => hle (h.window b hlo hhi)⟩

theorem Sourced.flush (h : Sourced dev written) :
    Sourced (DiskBios.flush geo dev dev.lwdn) written := by
  refine ⟨Nat.le_refl 0, fun t ht => ?_, fun b _ hhi => absurd hhi (Nat.not_lt_zero b)⟩
  cases List.mem_append.mp ht with
  | inl hold => exact h.transfers hold
  | inr hnew =>
      obtain ⟨i, hi, rfl⟩ := List.mem_map.mp hnew
      have hi := List.mem_range.mp hi
      have hwin := h.window (dev.lwb + i) (Nat.le_add_right _ _) (by omega)
      have hsec : dev.lwp + (dev.lwb + i) + 1 = dev.lwp + dev.lwb + 1 + i := by omega
      have hslice : slice dev.wcache ((dev.lwb + i) * SIZE_BLOCK) SIZE_BLOCK =
          slice (fun j => dev.wcache (dev.lwb * SIZE_BLOCK + j)) (i * SIZE_BLOCK) SIZE_BLOCK := by
        rw [slice_eq_iff]
        intro k _
        simp only [Nat.add_mul, Nat.add_assoc]
      rw [hsec, hslice] at hwin
      exact hwin

theorem Sourced.openWindow (h : Sourced dev written) (hdisk : dev.lwb = dev.lwe ∨ dn = dev.lwdn) :
    Sourced (openWindow geo dev dn sb) written := by
  rw [DiskBios.openWindow]
  split
  · next hmiss =>
    rw [hdisk.resolve_left hmiss.1]
    exact h.flush
  · exact h

/-- A slice of the cache in another block than the one written. -/
theorem slice_other (mem : Nat → UInt8) {b b' : Nat} {chunk : List UInt8}
    (hlen : chunk.length = SIZE_BLOCK) (hne : b' ≠ b) :
    slice (overlay mem (b * SIZE_BLOCK) chunk) (b' * SIZE_BLOCK) SIZE_BLOCK =
      slice mem (b' * SIZE_BLOCK) SIZE_BLOCK := by
  rw [slice_eq_iff]
  intro k hk
  cases Nat.lt_or_gt_of_ne hne with
  | inl hlt =>
      have hle := Nat.mul_le_mul_right SIZE_BLOCK (Nat.succ_le_of_lt hlt)
      rw [Nat.succ_mul] at hle
      exact overlay_of_lt _ _ _ (by omega)
  | inr hgt =>
      have hle := Nat.mul_le_mul_right SIZE_BLOCK (Nat.succ_le_of_lt hgt)
      rw [Nat.succ_mul] at hle
      exact overlay_of_ge _ _ _ (by omega)

theorem Sourced.writeBlock (h : Sourced dev written) (hdisk : dev.lwb = dev.lwe ∨ dn = dev.lwdn) {chunk : List UInt8}
    (hlen : chunk.length = SIZE_BLOCK) (hmem : blockWrite (geo dn) dn sb chunk ∈ written) :
    Sourced (writeBlock geo dev dn sb 0 chunk) written := by
  have hopen : Sourced (DiskBios.openWindow geo dev dn sb) written := h.openWindow hdisk
  have hready : ¬missesWcache geo (DiskBios.openWindow geo dev dn sb) dn sb := openWindow_ready
  have hle := hopen.le
  refine ⟨?_, hopen.transfers, ?_⟩
  · show (extendWindow geo (DiskBios.openWindow geo dev dn sb) dn sb).lwb ≤
      (extendWindow geo (DiskBios.openWindow geo dev dn sb) dn sb).lwe
    by_cases hnone : (DiskBios.openWindow geo dev dn sb).lwb =
        (DiskBios.openWindow geo dev dn sb).lwe
    · obtain ⟨hlwb, hlwe⟩ := extend_empty geo dn sb hnone
      omega
    · obtain ⟨hlwb, hlwe⟩ := extend_window hle hready hnone
      omega
  show ∀ b, (extendWindow geo (DiskBios.openWindow geo dev dn sb) dn sb).lwb ≤ b →
    b < (extendWindow geo (DiskBios.openWindow geo dev dn sb) dn sb).lwe →
    ⟨dn, (geo dn).cyl sb, (geo dn).head sb, segment BLOCKS_WCACHE ((geo dn).sec sb) + b + 1,
      slice (overlay (DiskBios.openWindow geo dev dn sb).wcache
        ((geo dn).sec sb % BLOCKS_WCACHE * SIZE_BLOCK + 0) chunk) (b * SIZE_BLOCK) SIZE_BLOCK⟩ ∈
      written
  rw [Nat.add_zero]
  generalize DiskBios.openWindow geo dev dn sb = dev₁ at *
  intro b hlo hhi
  by_cases hb : b = (geo dn).sec sb % BLOCKS_WCACHE
  · have hslice := slice_overlay dev₁.wcache ((geo dn).sec sb % BLOCKS_WCACHE * SIZE_BLOCK) chunk
    rw [hlen] at hslice
    rw [hb, Geo.segment_add_mod, hslice]
    exact hmem
  · rw [slice_other _ hlen hb]
    by_cases hnone : dev₁.lwb = dev₁.lwe
    · obtain ⟨hlwb, hlwe⟩ := extend_empty geo dn sb hnone
      omega
    · obtain ⟨hdn, hc, hh, hp, _, _⟩ := window_of_not_misses hready hnone
      obtain ⟨hlwb, hlwe⟩ := extend_window hle hready hnone
      rw [hc, hh, hp, hdn]
      exact hopen.window b (by omega) (by omega)

theorem Sourced.writeLoop (k : Nat) {data : List UInt8} {offs : Nat} (n : Nat)
    (h : Sourced dev written) (hdisk : dev.lwb = dev.lwe ∨ dn = dev.lwdn)
    (hoffs : offs % SIZE_BLOCK = 0) (hlen : data.length = k * SIZE_BLOCK)
    (hmem : ∀ i, i < k →
      blockWrite (geo dn) dn (sb + i) ((data.drop (i * SIZE_BLOCK)).take SIZE_BLOCK) ∈ written) :
    Sourced (writeLoop geo dn k dev sb offs data n).1 written := by
  induction k generalizing dev sb offs data n with
  | zero => exact h
  | succ k ih =>
      have hsize : (if k = 0 then data.length else SIZE_BLOCK - offs % SIZE_BLOCK) = SIZE_BLOCK := by
        split
        · next hzero => rw [hlen, hzero, Nat.zero_add, Nat.one_mul]
        · rw [hoffs, Nat.sub_zero]
      rw [Nat.add_mul, Nat.one_mul] at hlen
      have htake : (data.take SIZE_BLOCK).length = SIZE_BLOCK := List.length_take_of_le (by omega)
      have hfirst := hmem 0 (Nat.zero_lt_succ k)
      rw [Nat.zero_mul, List.drop_zero, Nat.add_zero] at hfirst
      rw [DiskBios.writeLoop, hsize, hoffs]
      refine ih (n + SIZE_BLOCK) (h.writeBlock hdisk htake hfirst) (Or.inr rfl) ?_ ?_ fun i hi => ?_
      · rw [SIZE_BLOCK] at hoffs ⊢
        omega
      · rw [List.length_drop, hlen, Nat.add_sub_cancel]
      · have hnext := hmem (i + 1) (Nat.succ_lt_succ hi)
        rw [List.drop_drop, Nat.add_comm SIZE_BLOCK, ← Nat.succ_mul, Nat.add_assoc, Nat.add_comm 1]
        exact hnext

/-- Whole blocks end where a block ends. -/
theorem endBlock_whole {offs len : Nat} (hpos : 0 < len) (hoffs : SIZE_BLOCK ∣ offs)
    (hlen : SIZE_BLOCK ∣ len) (hfits : offs + len ≤ 2 ^ 32) :
    (endBlock offs len + 1) * SIZE_BLOCK = offs + len := by
  obtain ⟨m, hm⟩ := Nat.dvd_add hoffs hlen
  have hm' : 0 < m := Nat.pos_of_mul_pos_left (by rw [← hm]; omega : 0 < SIZE_BLOCK * m)
  obtain ⟨m, rfl⟩ := Nat.exists_eq_add_of_le' hm'
  rw [endBlock_eq hfits, hm, Nat.mul_add, Nat.mul_one,
    Nat.add_sub_assoc (show 1 ≤ SIZE_BLOCK by decide), Nat.mul_add_div (by decide),
    Nat.div_eq_of_lt (by decide), Nat.add_zero, Nat.add_mul, Nat.one_mul, Nat.mul_comm]

theorem Sourced.diskbiosWrite {minor offs : Nat} {data : List UInt8} (h : Sourced dev written)
    (hget : diskbiosGet minor = some dn) (hne : data ≠ []) (hoffs : SIZE_BLOCK ∣ offs)
    (hlen : SIZE_BLOCK ∣ data.length) (hfits : offs + data.length ≤ 2 ^ 32)
    (hdisk : dev.lwb = dev.lwe ∨ dn = dev.lwdn)
    (hmem : blockWrites (geo dn) dn offs data ⊆ written) :
    Sourced (diskbiosWrite geo dev minor offs data).1 written := by
  have hpos := List.length_pos_iff.mpr hne
  have hstart : startBlock offs * SIZE_BLOCK = offs := Nat.div_mul_cancel hoffs
  have hend := endBlock_whole hpos hoffs hlen hfits
  have hcount : (endBlock offs data.length + 1 - startBlock offs) * SIZE_BLOCK = data.length := by
    rw [Nat.sub_mul, hend, hstart, Nat.add_sub_cancel_left]
  have hdiv : data.length / SIZE_BLOCK = endBlock offs data.length + 1 - startBlock offs :=
    Nat.div_eq_of_eq_mul_left (by decide) hcount.symm
  rw [DiskBios.diskbiosWrite, hget]
  simp only [if_neg (Nat.ne_of_gt hpos)]
  refine h.writeLoop _ 0 hdisk (Nat.mod_eq_zero_of_dvd hoffs) hcount.symm fun i hi => hmem ?_
  rw [← hdiv] at hi
  exact List.mem_map.mpr ⟨i, List.mem_range.mpr hi, rfl⟩

end Sourced

inductive DiskCall
  | write (minor offs : Nat) (data : List UInt8)
  | sync (minor : Nat)

/-- The device, with what the calls so far make of the disks and the blocks that
they wrote. -/
structure DiskSession where
  dev : DiskCommon
  content : Nat → Nat → UInt8
  written : List BlockWrite

namespace DiskSession

def init (disk : Nat → Nat → UInt8) (rcache wcache : Nat → UInt8) : DiskSession :=
  ⟨diskbiosRegister disk rcache wcache, disk, []⟩

def step (geo : Nat → Geo) (s : DiskSession) : DiskCall → DiskSession
  | .write minor offs data =>
    match diskbiosGet minor with
    | none => { s with dev := (diskbiosWrite geo s.dev minor offs data).1 }
    | some dn =>
      { dev := (diskbiosWrite geo s.dev minor offs data).1
        content := put s.content dn offs data
        written := s.written ++ blockWrites (geo dn) dn offs data }
  | .sync minor => { s with dev := (diskbiosSync geo s.dev minor).1 }

/-- The call writes whole blocks, at addresses there are. -/
def WholeBlocks : DiskCall → Prop
  | .write _ offs data =>
    SIZE_BLOCK ∣ offs ∧ SIZE_BLOCK ∣ data.length ∧ offs + data.length ≤ 2 ^ 32
  | .sync _ => True

/-- The call writes to the disk of the window, if there is a window. -/
def KeepsDisk (s : DiskSession) : DiskCall → Prop
  | .write minor _ data =>
    data ≠ [] → s.dev.lwb = s.dev.lwe ∨ diskbiosGet minor = some s.dev.lwdn ∨ diskbiosGet minor = none
  | .sync _ => True

def Fits (s : DiskSession) (call : DiskCall) : Prop := WholeBlocks call ∧ s.KeepsDisk call

/-- The invariant of the runs. -/
structure Coherent (geo : Nat → Geo) (s : DiskSession) : Prop where
  holds : Holds geo s.dev s.content
  clean : Clean geo s.dev s.content
  minor : s.dev.lwb ≠ s.dev.lwe → ∃ minor, diskbiosGet minor = some s.dev.lwdn
  sourced : Sourced s.dev s.written

section Run
variable {geo : Nat → Geo} {s : DiskSession}

theorem init_coherent (disk : Nat → Nat → UInt8) (rcache wcache : Nat → UInt8) :
    Coherent geo (init disk rcache wcache) where
  holds := ⟨Nat.le_refl 0, Nat.zero_le _, fun hne => absurd rfl hne, fun _ _ _ => rfl⟩
  clean := fun a hin => absurd hin (not_inWindow_of_eq rfl _ a)
  minor := fun hne => absurd rfl hne
  sourced := ⟨Nat.le_refl 0, List.nil_subset _, fun b _ hhi => absurd hhi (Nat.not_lt_zero b)⟩

/-- Whole blocks never need anything from the disk. -/
theorem Coherent.writeFits (h : s.Coherent geo) {dn offs : Nat} (hoffs : SIZE_BLOCK ∣ offs)
    (hdisk : s.dev.lwb = s.dev.lwe ∨ dn = s.dev.lwdn) (eb : Nat) :
    WriteFits geo s.dev s.content dn offs eb := by
  constructor
  · intro hmiss
    exact ⟨hdisk.resolve_left hmiss.1, h.clean⟩
  · intro _ a ha hin
    cases hin with
    | inl hge =>
        rw [startBlock, Nat.div_mul_cancel hoffs] at hge
        exact absurd ha (Nat.not_lt.mpr hge)
    | inr hin =>
        obtain ⟨hready, hin⟩ := hin
        have hne := fun hnone => not_inWindow_of_eq hnone dn a hin
        have hclean := h.clean a (by rw [← hin.1]; exact hin)
        rw [windowBase_of_not_misses hready hne, ← hin.1] at hclean
        exact hclean

/-- A window that was clean is clean after whole blocks. -/
theorem Coherent.clean_of_wrote (h : s.Coherent geo) {dn offs : Nat} {data : List UInt8}
    {dev' : DiskCommon} (hne : data ≠ []) (hoffs : SIZE_BLOCK ∣ offs)
    (hlen : SIZE_BLOCK ∣ data.length) (hfits : offs + data.length ≤ 2 ^ 32)
    (hwrote : Wrote geo s.dev s.content dn offs data (endBlock offs data.length) dev') :
    Clean geo dev' (put s.content dn offs data) := by
  have hpos := List.length_pos_iff.mpr hne
  intro a hin
  rw [hwrote.lwdn] at hin ⊢
  refine (hwrote.right a hin ?_).2
  refine (hwrote.window a hin).imp (fun hblocks => ?_) fun hold => ⟨hold.1, hold.2, ?_⟩
  · rw [startBlock, Nat.div_mul_cancel hoffs, endBlock_whole hpos hoffs hlen hfits] at hblocks
    exact hblocks
  · rw [hold.2.1]
    exact h.clean a (by rw [← hold.2.1]; exact hold.2)

theorem Coherent.write (h : s.Coherent geo) {minor offs : Nat} {data : List UInt8}
    (hfits : s.Fits (.write minor offs data)) : (s.step geo (.write minor offs data)).Coherent geo := by
  obtain ⟨⟨hoffs, hlen, hrange⟩, hkeeps⟩ := hfits
  cases hget : diskbiosGet minor with
  | none =>
      have hdev : diskbiosWrite geo s.dev minor offs data = (s.dev, - EINVAL) := by
        rw [diskbiosWrite, hget]
      simp only [step, hget, hdev]
      exact h
  | some dn =>
      simp only [step, hget]
      by_cases hne : data = []
      · have hdev : diskbiosWrite geo s.dev minor offs data = (s.dev, 0) := by
          rw [diskbiosWrite, hget, hne]
          rfl
        rw [hdev, hne, put, overlay_nil, Function.update_eq_self]
        exact ⟨h.holds, h.clean, h.minor, h.sourced.mono (List.subset_append_left _ _)⟩
      · have hdisk : s.dev.lwb = s.dev.lwe ∨ dn = s.dev.lwdn := by
          cases hkeeps hne with
          | inl hnone => exact Or.inl hnone
          | inr hsome =>
              rw [hget] at hsome
              exact Or.inr (by simpa using hsome)
        obtain ⟨dev', hwrite, hwrote⟩ := h.holds.diskbiosWrite hget hne hrange
          (h.writeFits hoffs hdisk (endBlock offs data.length))
        have hsourced := (h.sourced.mono (List.subset_append_left _ _)).diskbiosWrite hget hne hoffs
          hlen hrange hdisk (List.subset_append_right s.written (blockWrites (geo dn) dn offs data))
        rw [hwrite] at hsourced ⊢
        exact ⟨hwrote.holds, h.clean_of_wrote hne hoffs hlen hrange hwrote,
          fun _ => ⟨minor, by rw [hwrote.lwdn]; exact hget⟩, hsourced⟩

theorem Coherent.sync (h : s.Coherent geo) (minor : Nat) :
    (s.step geo (.sync minor)).Coherent geo ∧
      (s.dev.lwb = s.dev.lwe ∨ diskbiosGet minor = some s.dev.lwdn →
        (s.step geo (.sync minor)).dev.lwb = (s.step geo (.sync minor)).dev.lwe) ∧
      (s.step geo (.sync minor)).dev.lwdn = s.dev.lwdn := by
  cases hget : diskbiosGet minor with
  | none =>
      have hdev : diskbiosSync geo s.dev minor = (s.dev, - EINVAL) := by rw [diskbiosSync, hget]
      simp only [step, hdev]
      exact ⟨h, fun hdone => hdone.resolve_right fun hsome => absurd hsome (Option.some_ne_none _).symm,
        trivial⟩
  | some dn =>
      obtain ⟨hholds, hclean, hdone⟩ := h.holds.sync h.clean hget
      have hlwdn : (diskbiosSync geo s.dev minor).1.lwdn = s.dev.lwdn := by
        rw [sync_eq hget]
        split <;> rfl
      refine ⟨⟨hholds, hclean, ?_, ?_⟩, fun hd => hdone (hd.imp_right fun hsome => ?_), hlwdn⟩
      · show (diskbiosSync geo s.dev minor).1.lwb ≠ (diskbiosSync geo s.dev minor).1.lwe →
          ∃ minor', diskbiosGet minor' = some (diskbiosSync geo s.dev minor).1.lwdn
        rw [hlwdn, sync_eq hget]
        split
        · exact fun hne => absurd rfl hne
        · exact h.minor
      · show Sourced (diskbiosSync geo s.dev minor).1 s.written
        rw [sync_eq hget]
        split
        · next hsync =>
          rw [hsync.2]
          exact h.sourced.flush
        · exact h.sourced
      · exact Option.some.inj hsome

theorem coherent_of_run {disk : Nat → Nat → UInt8} {rcache wcache : Nat → UInt8}
    (hrun : Reachable (step geo) Fits (init disk rcache wcache) s) : s.Coherent geo := by
  refine hrun.invariant (init_coherent disk rcache wcache) fun s call hs hfits => ?_
  cases call with
  | write minor offs data => exact hs.write hfits
  | sync minor => exact (hs.sync minor).1

/-- Synchronising disks, the one of the window among them, leaves no window. -/
theorem Coherent.syncs (h : s.Coherent geo) (minors : List Nat)
    (hall : s.dev.lwb = s.dev.lwe ∨ ∃ minor ∈ minors, diskbiosGet minor = some s.dev.lwdn) :
    (minors.foldl (fun s minor => s.step geo (.sync minor)) s).Coherent geo ∧
      (minors.foldl (fun s minor => s.step geo (.sync minor)) s).dev.lwb =
        (minors.foldl (fun s minor => s.step geo (.sync minor)) s).dev.lwe ∧
      (minors.foldl (fun s minor => s.step geo (.sync minor)) s).content = s.content ∧
      (minors.foldl (fun s minor => s.step geo (.sync minor)) s).written = s.written := by
  induction minors generalizing s with
  | nil =>
      refine ⟨h, ?_, rfl, rfl⟩
      cases hall with
      | inl hnone => exact hnone
      | inr hex =>
          obtain ⟨_, hmem, _⟩ := hex
          exact absurd hmem List.not_mem_nil
  | cons minor minors ih =>
      obtain ⟨hstep, hdone, hlwdn⟩ := h.sync minor
      refine ih hstep ?_
      cases hall with
      | inl hnone => exact Or.inl (hdone (Or.inl hnone))
      | inr hex =>
          obtain ⟨m, hmem, hget⟩ := hex
          cases List.mem_cons.mp hmem with
          | inl heq => exact Or.inl (hdone (Or.inr (by rw [← heq]; exact hget)))
          | inr hrest => exact Or.inr ⟨m, hrest, by rw [hlwdn]; exact hget⟩

end Run

end DiskSession

/-- In every run of calls that keep to the disk of the window, the blocks
transferred to a disk were written for that disk and place, and synchronising all
disks leaves each with the first content and its own writes over it. -/
theorem runs_on_one_disk_at_a_time_write_through (geo : Nat → Geo) (disk : Nat → Nat → UInt8)
    (rcache wcache : Nat → UInt8) (s : DiskSession)
    (hrun : Reachable (DiskSession.step geo) DiskSession.Fits (.init disk rcache wcache) s)
    (minors : List Nat) (hall : ∀ minor, minor < DISKBIOS_MAX_CNT → minor ∈ minors) :
    s.dev.transfers ⊆ s.written ∧
      (minors.foldl (fun s minor => s.step geo (.sync minor)) s).dev.transfers ⊆ s.written ∧
      (minors.foldl (fun s minor => s.step geo (.sync minor)) s).dev.disk = s.content := by
  have h := DiskSession.coherent_of_run hrun
  have hsynced : s.dev.lwb = s.dev.lwe ∨
      ∃ minor ∈ minors, diskbiosGet minor = some s.dev.lwdn := by
    by_cases hnone : s.dev.lwb = s.dev.lwe
    · exact Or.inl hnone
    · obtain ⟨minor, hget⟩ := h.minor hnone
      refine Or.inr ⟨minor, hall minor ?_, hget⟩
      by_contra hge
      rw [diskbiosGet, if_pos (Nat.le_of_not_lt hge)] at hget
      exact absurd hget (Option.some_ne_none _).symm
  obtain ⟨hend, hnone, hcontent, hwritten⟩ := h.syncs minors hsynced
  refine ⟨h.sourced.transfers, ?_, ?_⟩
  · rw [← hwritten]
    exact hend.sourced.transfers
  · rw [← hcontent]
    exact hend.holds.disk_eq hnone

/-- Two disks are written, with a synchronisation between. -/
theorem runs_on_one_disk_at_a_time_write_through_two :
    let s := (((DiskSession.init (fun _ _ => 0) (fun _ => 0) (fun _ => 0)).step (fun _ => largeDisk)
      (.write 1 0 (List.replicate 0x200 1))).step (fun _ => largeDisk) (.sync 1)).step
      (fun _ => largeDisk) (.write 2 0 (List.replicate 0x200 2))
    ([0, 1, 2, 3, 4].foldl (fun s minor => s.step (fun _ => largeDisk) (.sync minor)) s).dev.disk =
      s.content := by
  intro s
  have hrun : Reachable (DiskSession.step fun _ => largeDisk) DiskSession.Fits
      (.init (fun _ _ => 0) (fun _ => 0) (fun _ => 0)) s := by
    have hwhole : ∀ minor b, DiskSession.WholeBlocks (.write minor 0 (List.replicate 0x200 b)) := by
      intro minor b
      rw [DiskSession.WholeBlocks, List.length_replicate]
      exact ⟨by decide, by decide, by decide⟩
    exact .step (.step (.step .init ⟨hwhole 1 1, fun _ => Or.inl rfl⟩) ⟨trivial, trivial⟩)
      ⟨hwhole 2 2, fun _ => Or.inl (by decide +kernel)⟩
  exact (runs_on_one_disk_at_a_time_write_through (fun _ => largeDisk) _ _ _ s hrun [0, 1, 2, 3, 4]
    (by decide)).2.2

/-- Without the synchronisation the block of the first disk is transferred to the
second one, and the first one never gets it. -/
theorem window_written_to_the_other_disk :
    let s := ((DiskSession.init (fun _ _ => 0) (fun _ => 0) (fun _ => 0)).step (fun _ => largeDisk)
      (.write 1 0 (List.replicate 0x200 1))).step (fun _ => largeDisk)
      (.write 2 0 (List.replicate 0x200 2))
    ¬s.dev.transfers ⊆ s.written ∧
      ([0, 1, 2, 3, 4].foldl (fun s minor => s.step (fun _ => largeDisk) (.sync minor)) s).dev.disk
        0x80 0 ≠ s.content 0x80 0 := by
  decide +kernel

end Plo.Devices.DiskBios
