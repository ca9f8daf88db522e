import Plo.Devices.FlashZynq

/-!
The two walks over the erase regions of a CFI description. One adds up the sizes of
the regions in front, the other keeps the size of the last one only, so that they
agree where the region in front begins at the start of the chip.
-/
namespace Plo.Devices.Zynq

/-- The erase regions of a CFI description, in the address space of the target. -/
structure CfiRegions where
  regs : List CfiRegion
  fits : (regs.map CfiRegion.regionSz).sum < 2 ^ 32

namespace CfiRegions
variable (cfi : CfiRegions)

def size (id : Nat) : Nat := (cfi.regs.getD id ⟨0, 0⟩).regionSz

/-- `flashdrv_regStart` -/
def regStart (id : Nat) : Nat := ((cfi.regs.take id).map CfiRegion.regionSz).sum

/-- `flashdrv_regionFind` -/
def regionFind (offs : Nat) : Option Nat := regionFindFrom offs cfi.regs 0 0

def chipSize : Nat := cfi.regStart cfi.regs.length

/-- The region of an offset. -/
structure Contains (id offs : Nat) : Prop where
  lt : id < cfi.regs.length
  start : cfi.regStart id ≤ offs
  stop : offs < cfi.regStart id + cfi.size id

/-- The search gives the region of the offset. -/
def FindsRegion (offs : Nat) : Prop := ∃ id, cfi.regionFind offs = some id ∧ cfi.Contains id offs

end CfiRegions

/-- The regions of a chip. -/
def FlashCfi.regions (cfi : FlashCfi) : CfiRegions where
  regs := cfi.regs
  fits := by
    rw [cfi.regs_sum]
    exact Nat.pow_lt_pow_right (by decide) cfi.chipSize_lt

theorem regStart_regions (cfi : FlashCfi) (id : Nat) :
    cfi.regions.regStart id = flashdrvRegStart cfi id := rfl

theorem regionFind_regions (cfi : FlashCfi) (offs : Nat) :
    cfi.regions.regionFind offs = flashdrvRegionFind cfi offs := rfl

section Find
variable {offs : Nat}

theorem regionFindFrom_ge (regs : List CfiRegion) {start i id : Nat}
    (h : regionFindFrom offs regs start i = some id) : i ≤ id := by
  induction regs generalizing start i with
  | nil => cases h
  | cons r regs ih =>
      rw [regionFindFrom] at h
      split at h
      · exact Nat.le_of_eq (Option.some.inj h)
      · exact Nat.le_of_succ_le (ih h)

/-- The search passes the regions in front of the offset, wherever it takes them to
start, and then needs the offset to lie below the sizes of two regions. The induction
is on the regions; `start` is where the walk is and `base` where the region is. -/
theorem regionFindFrom_iff {regs : List CfiRegion} {id start base : Nat} (i : Nat)
    (hid : id < regs.length) (hstart : start ≤ base)
    (hlo : base + ((regs.take id).map CfiRegion.regionSz).sum ≤ offs)
    (hhi : offs < base + ((regs.take (id + 1)).map CfiRegion.regionSz).sum) :
    regionFindFrom offs regs start i = some (i + id) ↔
      offs < (if id = 0 then start else (regs.getD (id - 1) ⟨0, 0⟩).regionSz) +
        (regs.getD id ⟨0, 0⟩).regionSz := by
  induction regs generalizing id start base i with
  | nil => exact absurd hid (Nat.not_lt_zero id)
  | cons r regs ih =>
      rw [regionFindFrom]
      cases id with
      | zero =>
          rw [List.take_zero, List.map_nil, List.sum_nil] at hlo
          rw [if_pos rfl, List.getD_cons_zero]
          by_cases hin : offs < start + r.regionSz
          · exact iff_of_true (if_pos ⟨by omega, hin⟩) hin
          · rw [if_neg fun h => hin h.2]
            refine iff_of_false (fun h => ?_) hin
            have hge := regionFindFrom_ge regs h
            omega
      | succ id =>
          simp only [List.take_succ_cons, List.map_cons, List.sum_cons] at hlo hhi
          rw [List.length_cons] at hid
          have hpast : ¬ (start ≤ offs ∧ offs < start + r.regionSz) := by omega
          have hnext := ih (i + 1) (Nat.lt_of_succ_lt_succ hid)
            (Nat.le_add_left r.regionSz base) (by omega) (by omega)
          rw [if_neg hpast, ← Nat.add_assoc, Nat.add_right_comm, hnext,
            if_neg (Nat.succ_ne_zero id), List.getD_cons_succ, Nat.add_sub_cancel]
          cases id with
          | zero => rw [if_pos rfl, List.getD_cons_zero]
          | succ id => rw [if_neg (Nat.succ_ne_zero id), Nat.add_sub_cancel, List.getD_cons_succ]

end Find

namespace CfiRegions
variable {cfi : CfiRegions} {id offs : Nat}

theorem regStart_succ (h : id < cfi.regs.length) :
    cfi.regStart (id + 1) = cfi.regStart id + cfi.size id := by
  rw [regStart, List.take_add_one, List.getElem?_eq_getElem h, Option.toList_some, List.map_append,
    List.sum_append, size, List.getD_eq_getElem _ _ h]
  simp [regStart]

theorem contains_iff : cfi.Contains id offs ↔
    id < cfi.regs.length ∧ cfi.regStart id ≤ offs ∧ offs < cfi.regStart (id + 1) := by
  constructor
  · intro h
    exact ⟨h.lt, h.start, regStart_succ h.lt ▸ h.stop⟩
  · rintro ⟨hlt, hlo, hhi⟩
    exact ⟨hlt, hlo, regStart_succ hlt ▸ hhi⟩

theorem regStart_mono {id' : Nat} (h : id ≤ id') : cfi.regStart id ≤ cfi.regStart id' := by
  have hsum := congrArg (fun regs : List CfiRegion => (regs.map CfiRegion.regionSz).sum)
    (List.take_append_drop id (cfi.regs.take id'))
  simp only [List.map_append, List.sum_append, List.take_take, Nat.min_eq_left h] at hsum
  rw [regStart, regStart]
  omega

theorem Contains.unique {id' : Nat} (h : cfi.Contains id offs) (h' : cfi.Contains id' offs) :
    id = id' := by
  rw [contains_iff] at h h'
  by_contra hne
  obtain hlt | hgt := Nat.lt_or_gt_of_ne hne
  · have hmono := @regStart_mono cfi (id + 1) id' hlt
    omega
  · have hmono := @regStart_mono cfi (id' + 1) id hgt
    omega

/-- Every offset on the chip lies in a region. -/
theorem exists_contains (h : offs < cfi.chipSize) : ∃ id, cfi.Contains id offs := by
  rw [chipSize] at h
  generalize hn : cfi.regs.length = n at h
  have hle : n ≤ cfi.regs.length := Nat.le_of_eq hn.symm
  clear hn
  induction n with
  | zero => exact absurd h (Nat.not_lt_zero offs)
  | succ n ih =>
      by_cases hlt : offs < cfi.regStart n
      · exact ih hlt (Nat.le_of_succ_le hle)
      · exact ⟨n, contains_iff.mpr ⟨hle, Nat.not_lt.mp hlt, h⟩⟩

/-- The region the offset lies in ends where the search takes it to end or before. -/
def SearchReaches (cfi : CfiRegions) (offs : Nat) : Prop :=
  ∀ id, cfi.Contains (id + 1) offs → offs < cfi.size id + cfi.size (id + 1)

/-- The search gives the region of an offset exactly if that is the first one or the
offset is below the sizes of it and the one in front together. -/
theorem regionFind_right_iff (cfi : CfiRegions) (offs : Nat) (h : offs < cfi.chipSize) :
    cfi.FindsRegion offs ↔ cfi.SearchReaches offs := by
  obtain ⟨id, hid⟩ := exists_contains h
  obtain ⟨hlt, hlo, hhi⟩ := contains_iff.mp hid
  have hfind : cfi.regionFind offs = some (0 + id) ↔ _ :=
    regionFindFrom_iff 0 hlt (Nat.le_refl 0) (by rwa [Nat.zero_add]) (by rwa [Nat.zero_add])
  rw [Nat.zero_add] at hfind
  have hfinds : cfi.FindsRegion offs ↔ cfi.regionFind offs = some id := by
    constructor
    · rintro ⟨id', hfound, hid'⟩
      rw [hfound, hid.unique hid']
    · exact fun hfound => ⟨id, hfound, hid⟩
  rw [hfinds]
  refine hfind.trans ?_
  cases id with
  | zero =>
      rw [if_pos rfl]
      refine iff_of_true ?_ fun id hnext => ?_
      · have hstop := hid.stop
        rwa [regStart, List.take_zero, List.map_nil, List.sum_nil] at hstop
      · exact absurd (hid.unique hnext) (Nat.succ_ne_zero id).symm
  | succ id =>
      rw [if_neg (Nat.succ_ne_zero id), Nat.add_sub_cancel]
      constructor
      · intro hbelow id' hnext
        obtain rfl := Nat.succ.inj (hid.unique hnext)
        exact hbelow
      · exact fun hreach => hreach id hid

/-- Three regions of one sector of 64 kB each. -/
def threeRegions : CfiRegions := ⟨[⟨0, 0x100⟩, ⟨0, 0x100⟩, ⟨0, 0x100⟩], by decide⟩

theorem regionFind_right_iff_second :
    threeRegions.FindsRegion 0x1ffff ↔ threeRegions.SearchReaches 0x1ffff :=
  regionFind_right_iff threeRegions 0x1ffff (by decide)

/-- No region is found for the first byte of the third. -/
theorem third_region_missed :
    ¬ ∀ (cfi : CfiRegions) (offs : Nat), offs < cfi.chipSize → cfi.FindsRegion offs := by
  intro h
  obtain ⟨id, hfind, -⟩ := h threeRegions 0x20000 (by decide)
  have hnone : threeRegions.regionFind 0x20000 = none := by decide
  rw [hnone] at hfind
  cases hfind

end CfiRegions

end Plo.Devices.Zynq
