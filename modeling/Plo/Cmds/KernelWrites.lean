import Mathlib.Data.List.Forall2
import Plo.Cmds.Kernel
import Plo.Syspage.Placement

/-!
Where the segments of a kernel are written. An entry is as long as its segment in
memory, and a device that gives all it is asked for fills the size in the file; the
bytes stay in the entry whatever is read exactly when that is no larger.
-/
namespace Plo.Cmds
open Syspage
variable {w : Nat} {σ : Type}

section Copy
variable {sz : BitVec w}

/-- No more bytes are stored than are left. -/
theorem length_cp2ent_le {offs : BitVec w} {reads : List ReadResult} (hle : offs ≤ sz)
    (hfit : ReadsFit sz offs reads) :
    (cp2ent sz offs reads).1.length ≤ (sz - offs).toNat := by
  induction reads generalizing offs with
  | nil => simp [cp2ent]
  | cons read reads ih =>
      simp only [cp2ent]
      split
      · rename_i hlt
        cases read with
        | error res => simp
        | ok buff =>
            obtain ⟨hlen, hrest⟩ := hfit hlt
            have hsub : (sz - offs).toNat = sz.toNat - offs.toNat := BitVec.toNat_sub_of_le hle
            have hsz := sz.isLt
            have hoffs := BitVec.lt_def.mp hlt
            have hadd := toNat_add_ofNat_of_lt offs (show offs.toNat + buff.length < 2 ^ w by omega)
            have hle' : offs + BitVec.ofNat w buff.length ≤ sz := BitVec.le_def.mpr (by omega)
            have htail := ih hle' hrest
            rw [BitVec.toNat_sub_of_le hle', hadd] at htail
            simp only [List.length_append]
            omega
      · simp

/-- A device that gives a byte at a time. -/
def byteReads (n : Nat) : List ReadResult := List.replicate n (.ok [0])

theorem cp2ent_byteReads {offs : BitVec w} {n : Nat} (hn : offs.toNat + n = sz.toNat) :
    cp2ent sz offs (byteReads n) = (List.replicate n 0, some EOK) ∧
      ReadsFit sz offs (byteReads n) := by
  have hsz := sz.isLt
  induction n generalizing offs with
  | zero =>
      have hnot : ¬offs < sz := by
        rw [BitVec.lt_def]
        omega
      simp [byteReads, cp2ent, ReadsFit, hnot]
  | succ n ih =>
      have hlt : offs < sz := BitVec.lt_def.mpr (by omega)
      have hadd := toNat_add_ofNat_of_lt offs (show offs.toNat + 1 < 2 ^ w by omega)
      obtain ⟨hcopy, hfit⟩ := ih (show (offs + BitVec.ofNat w 1).toNat + n = sz.toNat by omega)
      have hsub : (sz - offs).toNat = sz.toNat - offs.toNat :=
        BitVec.toNat_sub_of_le (BitVec.le_of_lt hlt)
      have hlen : ([0] : List UInt8).length = 1 := rfl
      constructor
      · simp only [byteReads, List.replicate_succ, cp2ent, if_pos hlt, hlen] at hcopy ⊢
        rw [hcopy]
        rfl
      · intro _
        refine ⟨?_, hfit⟩
        rw [hsub, hlen]
        simp only [SIZE_MSG_BUFF]
        omega

end Copy

/-- The bytes of an entry from its start on, `n` of them, lie in it exactly when there are
none, or no more than it has and its end does not wrap around. -/
theorem bytes_inside_iff {start size : BitVec w} {n : Nat} (hn : n < 2 ^ w) :
    (∀ k, k < n → start ≤ start + BitVec.ofNat w k ∧ start + BitVec.ofNat w k < start + size) ↔
      n = 0 ∨ (n ≤ size.toNat ∧ start.toNat + size.toNat < 2 ^ w) := by
  have hstart := start.isLt
  have hsize := size.isLt
  have hend : (start + size).toNat = (start.toNat + size.toNat) % 2 ^ w := BitVec.toNat_add _ _
  simp only [BitVec.le_def, BitVec.lt_def, toNat_add_ofNat, hend]
  constructor
  · intro h
    by_cases hzero : n = 0
    · exact Or.inl hzero
    · obtain ⟨hle, hlt⟩ := h (n - 1) (by omega)
      by_cases hwrap : start.toNat + size.toNat < 2 ^ w
      · rw [Nat.mod_eq_of_lt hwrap] at hlt
        by_cases hbyte : start.toNat + (n - 1) < 2 ^ w
        · rw [Nat.mod_eq_of_lt hbyte] at hlt
          exact Or.inr ⟨by omega, hwrap⟩
        · rw [Nat.mod_eq_sub_mod (by omega), Nat.mod_eq_of_lt (by omega)] at hle
          omega
      · rw [Nat.mod_eq_sub_mod (show 2 ^ w ≤ start.toNat + size.toNat by omega),
          Nat.mod_eq_of_lt (show start.toNat + size.toNat - 2 ^ w < 2 ^ w by omega)] at hlt
        omega
  · rintro (rfl | ⟨hle, hwrap⟩) k hk
    · omega
    · rw [Nat.mod_eq_of_lt hwrap, Nat.mod_eq_of_lt (by omega)]
      omega

section Segments
variable (p : Platform w σ) (kernelGetAddress : BitVec w → BitVec w)

/-- Where the entry of a segment starts. -/
def Phdr.place (phdr : Phdr w) : BitVec w :=
  alignAddr (kernelGetAddress phdr.vaddr) (phdr.align.setWidth 32)

/-- The size in the file is no larger than that in memory, and the entry does not wrap
around; or there is nothing in the file. -/
def Phdr.Fits (phdr : Phdr w) : Prop :=
  phdr.filesz.toNat = 0 ∨ (phdr.filesz.toNat ≤ phdr.memsz.toNat ∧
    (phdr.place kernelGetAddress).toNat + phdr.memsz.toNat < 2 ^ w)

/-- Every segment that gets an entry fits. -/
def SegmentsFit : Common w σ → List (Phdr w) → Prop
  | _, [] => True
  | s, phdr :: phdrs =>
    if phdr.type = PHT_LOAD then
      match segmentEntry p kernelGetAddress s phdr with
      | (_, none) => True
      | (s, some _) => phdr.Fits kernelGetAddress ∧ SegmentsFit s phdrs
    else SegmentsFit s phdrs

variable {p kernelGetAddress}

theorem segmentEntry_some {s s' : Common w σ} {phdr : Phdr w} {entry : MapEnt w}
    (h : segmentEntry p kernelGetAddress s phdr = (s', some entry)) :
    entry = ⟨phdr.place kernelGetAddress, phdr.place kernelGetAddress + phdr.memsz, .allocated⟩ := by
  simp only [segmentEntry] at h
  rcases entryAdd_cases p s none (kernelGetAddress phdr.vaddr) phdr.memsz
    (phdr.align.setWidth 32) with hnone | ⟨i, map, place, -, -, hplace, hentry, -⟩
  · rw [h] at hnone
    cases hnone
  · rw [h] at hentry
    have hplace' : place = phdr.place kernelGetAddress := by
      simp only [entryPlace, ne_eq, not_true_eq_false, false_and, if_false, if_true] at hplace
      split at hplace
      · cases hplace
      · exact (Option.some.inj hplace).symm
    rw [← hplace']
    exact Option.some.inj hentry

/-- A segment with a header and any reads that fit it. -/
def Answered (phdr : Phdr w) (seg : Segment w) : Prop :=
  seg.phdr = .ok phdr ∧ ReadsFit phdr.filesz 0 seg.reads

theorem answered_byteReads (phdr : Phdr w) :
    Answered phdr ⟨.ok phdr, byteReads phdr.filesz.toNat⟩ ∧
      segmentLoad phdr.filesz (byteReads phdr.filesz.toNat) =
        (List.replicate phdr.filesz.toNat 0, some EOK) := by
  obtain ⟨hcopy, hfit⟩ := cp2ent_byteReads (show (0 : BitVec w).toNat + phdr.filesz.toNat =
    phdr.filesz.toNat by simp)
  exact ⟨⟨rfl, hfit⟩, hcopy⟩

theorem answered_nil (phdrs : List (Phdr w)) :
    List.Forall₂ Answered phdrs (phdrs.map fun phdr => ⟨.ok phdr, []⟩) := by
  rw [List.forall₂_map_right_iff]
  exact List.forall₂_same.mpr fun phdr _ => ⟨rfl, trivial⟩

/-- Whatever the reads give, the bytes of a segment lie in its entry if it fits. -/
theorem Phdr.Fits.inside {phdr : Phdr w} (h : phdr.Fits kernelGetAddress) {seg : Segment w}
    (hseg : Answered phdr seg) {entry : MapEnt w}
    (hentry : entry = ⟨phdr.place kernelGetAddress, phdr.place kernelGetAddress + phdr.memsz,
      .allocated⟩) {k : Nat} (hk : k < (segmentLoad phdr.filesz seg.reads).1.length) :
    entry.start ≤ entry.start + BitVec.ofNat w k ∧
      entry.start + BitVec.ofNat w k < entry.end_ := by
  have hlen := length_cp2ent_le (BitVec.le_def.mpr (by simp)) hseg.2
  have hzero : (phdr.filesz - 0).toNat = phdr.filesz.toNat := by simp
  rw [hzero] at hlen
  have hlt := phdr.filesz.isLt
  subst hentry
  exact (bytes_inside_iff hlt).mpr h k (hk.trans_le hlen)

/-- Where the kernel starts, after a segment. -/
def nextPAddr (phdr : Phdr w) (entry : MapEnt w) (kernelPAddr : BitVec w) : BitVec w :=
  if phdr.flags &&& PHF_X ≠ 0 then entry.start else kernelPAddr

/-- What is written for a segment with an entry, and then for the segments behind it if all
of it was read. -/
theorem kernelSegments_load {s s' : Common w σ} {phdr : Phdr w} {seg : Segment w}
    {entry : MapEnt w} (hload : phdr.type = PHT_LOAD) (hphdr : seg.phdr = .ok phdr)
    (hentry : segmentEntry p kernelGetAddress s phdr = (s', some entry)) (n : Nat)
    (kernelPAddr : BitVec w) (segs : List (Segment w)) :
    (kernelSegments p kernelGetAddress (n + 1) s kernelPAddr (seg :: segs)).writes =
        [(entry, (segmentLoad phdr.filesz seg.reads).1)] ∧
        (segmentLoad phdr.filesz seg.reads).2 ≠ some EOK ∨
      (kernelSegments p kernelGetAddress (n + 1) s kernelPAddr (seg :: segs)).writes =
        (entry, (segmentLoad phdr.filesz seg.reads).1) ::
          (kernelSegments p kernelGetAddress n s' (nextPAddr phdr entry kernelPAddr)
            segs).writes := by
  simp only [kernelSegments, hphdr, if_pos hload, hentry]
  rcases segmentLoad phdr.filesz seg.reads with ⟨copied, _ | res⟩
  · exact Or.inl ⟨rfl, nofun⟩
  · simp only
    split
    · rename_i hneg
      refine Or.inl ⟨rfl, fun hok => ?_⟩
      rw [Option.some.inj hok] at hneg
      exact absurd hneg (by decide)
    · exact Or.inr rfl

section Load
variable {s s' : Common w σ} {phdr : Phdr w} {phdrs : List (Phdr w)} {entry : MapEnt w}

/-- A device that gives everything fills the size in the file, and goes on. -/
theorem fits_of_writesInside (hload : phdr.type = PHT_LOAD)
    (hentry : segmentEntry p kernelGetAddress s phdr = (s', some entry)) (kernelPAddr : BitVec w)
    (h : ∀ segs, List.Forall₂ Answered (phdr :: phdrs) segs →
      WritesInside (kernelSegments p kernelGetAddress (phdrs.length + 1) s kernelPAddr segs).writes) :
    phdr.Fits kernelGetAddress ∧ ∀ segs, List.Forall₂ Answered phdrs segs →
      WritesInside (kernelSegments p kernelGetAddress phdrs.length s'
        (nextPAddr phdr entry kernelPAddr) segs).writes := by
  obtain ⟨hanswered, hcopy⟩ := answered_byteReads phdr
  have hwrites := fun segs =>
    (kernelSegments_load hload hanswered.1 hentry phdrs.length kernelPAddr
      segs).resolve_left fun hfail => hfail.2 (by rw [hcopy])
  refine ⟨?_, ?_⟩
  · refine (bytes_inside_iff phdr.filesz.isLt).mp ?_
    have hall := h _ (.cons hanswered (answered_nil phdrs)) entry _ (by
      rw [hwrites]
      exact List.mem_cons_self)
    rw [hcopy, List.length_replicate, segmentEntry_some hentry] at hall
    exact hall
  · intro segs hsegs entry' copied hmem
    refine h _ (.cons hanswered hsegs) entry' copied ?_
    rw [hwrites segs]
    exact List.mem_cons_of_mem _ hmem

theorem writesInside_of_fits (hload : phdr.type = PHT_LOAD)
    (hentry : segmentEntry p kernelGetAddress s phdr = (s', some entry)) (kernelPAddr : BitVec w)
    (hfits : phdr.Fits kernelGetAddress) {seg : Segment w} {segs : List (Segment w)}
    (hseg : Answered phdr seg)
    (hrest : WritesInside (kernelSegments p kernelGetAddress phdrs.length s'
      (nextPAddr phdr entry kernelPAddr) segs).writes) :
    WritesInside (kernelSegments p kernelGetAddress (phdrs.length + 1) s kernelPAddr
      (seg :: segs)).writes := by
  have hhead : ∀ k, k < (segmentLoad phdr.filesz seg.reads).1.length → _ :=
    fun k hk => hfits.inside hseg (segmentEntry_some hentry) hk
  intro entry' copied hmem
  rcases kernelSegments_load hload hseg.1 hentry phdrs.length kernelPAddr segs with
    ⟨heq, -⟩ | heq
  · rw [heq] at hmem
    cases List.mem_singleton.mp hmem
    exact hhead
  · rw [heq] at hmem
    cases List.mem_cons.mp hmem with
    | inl hfirst =>
        cases hfirst
        exact hhead
    | inr htail => exact hrest entry' copied htail

end Load

/-- The loop writes inside the entries whatever the reads give exactly when every segment
that gets an entry fits. -/
theorem kernelSegments_inside_iff (s : Common w σ) (kernelPAddr : BitVec w)
    (phdrs : List (Phdr w)) :
    (∀ segs, List.Forall₂ Answered phdrs segs →
        WritesInside (kernelSegments p kernelGetAddress phdrs.length s kernelPAddr segs).writes) ↔
      SegmentsFit p kernelGetAddress s phdrs := by
  induction phdrs generalizing s kernelPAddr with
  | nil => exact iff_of_true (fun segs _ => nofun) trivial
  | cons phdr phdrs ih =>
      simp only [SegmentsFit, List.length_cons]
      split
      · rename_i hload
        rcases hentry : segmentEntry p kernelGetAddress s phdr with ⟨s', _ | entry⟩
        · refine iff_of_true (fun segs hsegs => ?_) trivial
          cases hsegs with
          | cons hseg hrest => simp [kernelSegments, hseg.1, hload, hentry, WritesInside]
        · simp only
          constructor
          · intro h
            obtain ⟨hfits, hrest⟩ := fits_of_writesInside hload hentry kernelPAddr h
            exact ⟨hfits, (ih s' _).mp hrest⟩
          · rintro ⟨hfits, hrest⟩ segs hsegs
            cases hsegs with
            | cons hseg hsegs =>
                exact writesInside_of_fits hload hentry kernelPAddr hfits hseg
                  ((ih s' _).mpr hrest _ hsegs)
      · rename_i hskip
        rw [← ih s kernelPAddr]
        constructor
        · intro h segs hsegs
          have hall := h (⟨.ok phdr, []⟩ :: segs) (.cons ⟨rfl, trivial⟩ hsegs)
          simpa [kernelSegments, hskip] using hall
        · intro h segs hsegs
          cases hsegs with
          | cons hseg hrest =>
              have hall := h _ hrest
              simpa [kernelSegments, hseg.1, hskip] using hall

/-- The header of a file that goes on with `n` program headers. -/
def Ehdr.withPhnum (hdr : Ehdr w) (n : Nat) : Ehdr w := { hdr with phnum := n }

/-- The arguments and the header that `cmd_kernel` goes on with. -/
def KernelAccepts (argc : Nat) (hdr : Ehdr w) : Prop :=
  ¬(argc = 1 ∨ argc > 3) ∧ hdr.ident 0 = 0x7f ∧ hdr.ident 1 = 'E'.toUInt8 ∧
    hdr.ident 2 = 'L'.toUInt8 ∧ hdr.ident 3 = 'F'.toUInt8

/-- The command writes what its loop over the segments writes. -/
theorem cmdKernel_of_accepts {argc : Nat} {hdr : Ehdr w} (h : KernelAccepts argc hdr)
    (s : Common w σ) (n : Nat) (segs : List (Segment w)) :
    (cmdKernel p kernelGetAddress s argc ⟨.ok (), .ok (hdr.withPhnum n), segs⟩).1 =
      kernelSegments p kernelGetAddress n s (-1) segs := by
  obtain ⟨hargc, hident⟩ := h
  simp [cmdKernel, Ehdr.withPhnum, hargc, hident]

theorem cmdKernel_of_not_accepts {argc : Nat} {hdr : Ehdr w} (h : ¬KernelAccepts argc hdr)
    (s : Common w σ) (n : Nat) (segs : List (Segment w)) :
    (cmdKernel p kernelGetAddress s argc ⟨.ok (), .ok (hdr.withPhnum n), segs⟩).1.writes = [] := by
  simp only [cmdKernel]
  split
  · rfl
  · rename_i hargc
    rw [if_pos]
    by_contra hident
    simp only [not_or, not_not] at hident
    exact h ⟨hargc, hident⟩

end Segments

/-- A segment of sixteen bytes in memory and seventeen in the file. -/
def longSegment : Phdr 32 := ⟨PHT_LOAD, PHF_X, 0x1000, 17, 16, 4⟩

def elfHeader : Ehdr 32 := ⟨fun i => [0x7f, 0x45, 0x4c, 0x46].getD i 0, 0x1000, 1⟩

end Plo.Cmds
