import Plo.Syspage.State

/-!
The ranges of memory that the loader itself lies in, on AArch64: the linker's sections
and what the system page and the heap take. They may lie in one another. A call gives
the part between two addresses of a range that starts there first.
-/
namespace Plo.Hal.Memory
open Plo.Syspage (MapEnt EntryType)
variable {w : Nat}

/-- `hal_getMinOverlappedRange`: what it leaves in `minEntry`. -/
def getMinOverlappedRange (start end_ : BitVec w) (entry minEntry : MapEnt w) : MapEnt w :=
  if start < entry.end_ ∧ end_ > entry.start then
    let entry := if start > entry.start then { entry with start := start } else entry
    let entry := if end_ < entry.end_ then { entry with end_ := end_ } else entry
    if entry.start < minEntry.start then entry else minEntry
  else minEntry

/-- A turn of the loop of `hal_memoryGetNextEntry`, which passes over empty ranges. -/
def minTurn (start end_ : BitVec w) (minEntry entry : MapEnt w) : MapEnt w :=
  if entry.start ≥ entry.end_ then minEntry
  else getMinOverlappedRange start end_ entry minEntry

/-- `hal_memoryGetNextEntry`, with the range from the system page to the end of the heap
and the table of sections. -/
def memoryGetNextEntry (syspage : MapEnt w) (entries : List (MapEnt w)) (start end_ : BitVec w) :
    Option (MapEnt w) :=
  if start = end_ then none
  else
    let minEntry := getMinOverlappedRange start end_ syspage ⟨-1, 0, .reserved⟩
    let minEntry := entries.foldl (minTurn start end_) minEntry
    if minEntry.start ≠ -1 then some minEntry else none

/-- The address lies in a range of the list. -/
def Covered (ranges : List (MapEnt w)) (a : Nat) : Prop :=
  ∃ r ∈ ranges, r.start.toNat ≤ a ∧ a < r.end_.toNat

theorem covered_append {rs rs' : List (MapEnt w)} {a : Nat} :
    Covered (rs ++ rs') a ↔ Covered rs a ∨ Covered rs' a := by
  simp only [Covered, List.mem_append, or_and_right, exists_or]

theorem covered_singleton {r : MapEnt w} {a : Nat} :
    Covered [r] a ↔ r.start.toNat ≤ a ∧ a < r.end_.toNat := by
  simp [Covered]

section
variable {start end_ : BitVec w} {seen : List (MapEnt w)} {minEntry r : MapEnt w}

/-- The entry is a part of the ranges seen between the bounds, and nothing of them lies
before it. It ends with one of them or with the upper bound. -/
structure First (start end_ : BitVec w) (seen : List (MapEnt w)) (entry : MapEnt w) : Prop where
  start_le : start.toNat ≤ entry.start.toNat
  nonempty : entry.start.toNat < entry.end_.toNat
  end_le : entry.end_.toNat ≤ end_.toNat
  free : ∀ a, start.toNat ≤ a → a < entry.start.toNat → ¬Covered seen a
  covered : ∀ a, entry.start.toNat ≤ a → a < entry.end_.toNat → Covered seen a
  ends : entry.end_ = end_ ∨ ∃ r ∈ seen, entry.end_ = r.end_

/-- Nothing found so far, or the first part of what was seen. -/
def Minimal (start end_ : BitVec w) (seen : List (MapEnt w)) (minEntry : MapEnt w) : Prop :=
  (minEntry.start = -1 ∧ ∀ a, start.toNat ≤ a → a < end_.toNat → ¬Covered seen a) ∨
    First start end_ seen minEntry

/-- The part of a range between the bounds. -/
def clipped (start end_ : BitVec w) (r : MapEnt w) : MapEnt w :=
  ⟨if start > r.start then start else r.start, if end_ < r.end_ then end_ else r.end_, r.type⟩

theorem getMinOverlappedRange_eq :
    getMinOverlappedRange start end_ r minEntry =
      if start < r.end_ ∧ end_ > r.start then
        if (clipped start end_ r).start < minEntry.start then clipped start end_ r else minEntry
      else minEntry := by
  unfold getMinOverlappedRange clipped
  by_cases hs : start > r.start <;> by_cases he : end_ < r.end_ <;> simp [hs, he]

theorem toNat_clipped (start end_ : BitVec w) (r : MapEnt w) :
    (clipped start end_ r).start.toNat = max start.toNat r.start.toNat ∧
      (clipped start end_ r).end_.toNat = min end_.toNat r.end_.toNat := by
  unfold clipped
  simp only [gt_iff_lt, BitVec.lt_def]
  constructor
  · split <;> omega
  · split <;> omega

/-- The part of a range is the first one when nothing seen before starts earlier. -/
theorem first_clipped (hlt : start.toNat < end_.toNat) (hr : r.start.toNat < r.end_.toNat)
    (hs : start.toNat < r.end_.toNat) (he : r.start.toNat < end_.toNat)
    (hfree : ∀ a, start.toNat ≤ a → a < (clipped start end_ r).start.toNat → ¬Covered seen a) :
    First start end_ (seen ++ [r]) (clipped start end_ r) := by
  obtain ⟨hstart, hend⟩ := toNat_clipped start end_ r
  refine ⟨by omega, by omega, by omega, fun a hlo hhi hcov => ?_, fun a hlo hhi => ?_, ?_⟩
  · cases covered_append.mp hcov with
    | inl hseen => exact hfree a hlo hhi hseen
    | inr hr =>
        have := covered_singleton.mp hr
        omega
  · exact covered_append.mpr (Or.inr (covered_singleton.mpr (by omega)))
  · simp only [clipped]
    split
    · exact Or.inl rfl
    · exact Or.inr ⟨r, by simp, rfl⟩

/-- A range that starts no earlier between the bounds leaves the first part. -/
theorem First.append (h : First start end_ seen minEntry)
    (hr : ∀ a, start.toNat ≤ a → a < minEntry.start.toNat →
      ¬(r.start.toNat ≤ a ∧ a < r.end_.toNat)) : First start end_ (seen ++ [r]) minEntry := by
  refine ⟨h.start_le, h.nonempty, h.end_le, fun a hlo hhi hcov => ?_, fun a hlo hhi => ?_, ?_⟩
  · cases covered_append.mp hcov with
    | inl hseen => exact h.free a hlo hhi hseen
    | inr hnew => exact hr a hlo hhi (covered_singleton.mp hnew)
  · exact covered_append.mpr (Or.inl (h.covered a hlo hhi))
  · refine h.ends.imp_right ?_
    rintro ⟨r', hr', heq⟩
    exact ⟨r', List.mem_append_left _ hr', heq⟩

theorem toNat_neg_one : (-1 : BitVec w).toNat = 2 ^ w - 1 := by
  simp only [BitVec.ofNat_eq_ofNat, BitVec.neg_one_eq_allOnes, BitVec.toNat_allOnes]

/-- One range more keeps the minimum. -/
theorem minimal_overlapped (hlt : start.toNat < end_.toNat) (hr : r.start.toNat < r.end_.toNat)
    (h : Minimal start end_ seen minEntry) :
    Minimal start end_ (seen ++ [r]) (getMinOverlappedRange start end_ r minEntry) := by
  obtain ⟨hcs, hce⟩ := toNat_clipped start end_ r
  have hend := end_.isLt
  rw [getMinOverlappedRange_eq]
  split
  · rename_i hover
    rw [BitVec.lt_def, gt_iff_lt, BitVec.lt_def] at hover
    obtain ⟨hs, he⟩ := hover
    split
    · rename_i hless
      rw [BitVec.lt_def] at hless
      refine Or.inr (first_clipped hlt hr hs he fun a hlo hhi => ?_)
      cases h with
      | inl hnone => exact hnone.2 a hlo (by omega)
      | inr hfirst => exact hfirst.free a hlo (by omega)
    · rename_i hless
      rw [BitVec.lt_def] at hless
      cases h with
      | inl hnone =>
          -- the part starts below the upper bound, and so below the mark for nothing
          rw [hnone.1, toNat_neg_one] at hless
          omega
      | inr hfirst => exact Or.inr (hfirst.append fun a hlo hhi => by omega)
  · rename_i hover
    rw [BitVec.lt_def, gt_iff_lt, BitVec.lt_def] at hover
    cases h with
    | inl hnone =>
        refine Or.inl ⟨hnone.1, fun a hlo hhi hcov => ?_⟩
        cases covered_append.mp hcov with
        | inl hseen => exact hnone.2 a hlo hhi hseen
        | inr hnew =>
            have := covered_singleton.mp hnew
            omega
    | inr hfirst =>
        have hle := hfirst.end_le
        have hne := hfirst.nonempty
        exact Or.inr (hfirst.append fun a hlo hhi => by omega)

theorem minimal_turn (hlt : start.toNat < end_.toNat) (h : Minimal start end_ seen minEntry) :
    Minimal start end_ (seen ++ [r]) (minTurn start end_ minEntry r) := by
  rw [minTurn]
  split
  · rename_i hempty
    rw [ge_iff_le, BitVec.le_def] at hempty
    cases h with
    | inl hnone =>
        refine Or.inl ⟨hnone.1, fun a hlo hhi hcov => ?_⟩
        cases covered_append.mp hcov with
        | inl hseen => exact hnone.2 a hlo hhi hseen
        | inr hnew =>
            have := covered_singleton.mp hnew
            omega
    | inr hfirst => exact Or.inr (hfirst.append fun a hlo hhi => by omega)
  · rename_i hne
    rw [ge_iff_le, BitVec.le_def] at hne
    exact minimal_overlapped hlt (by omega) h

theorem minimal_foldl (hlt : start.toNat < end_.toNat) (entries : List (MapEnt w))
    (h : Minimal start end_ seen minEntry) :
    Minimal start end_ (seen ++ entries) (entries.foldl (minTurn start end_) minEntry) := by
  induction entries generalizing seen minEntry with
  | nil => rwa [List.append_nil]
  | cons r entries ih =>
      rw [List.append_cons]
      exact ih (minimal_turn hlt h)

/-- A call gives the first part of the ranges between the bounds, or there is none. -/
theorem memoryGetNextEntry_cases {syspage : MapEnt w} {entries : List (MapEnt w)}
    (hsyspage : syspage.start.toNat < syspage.end_.toNat) (hlt : start.toNat < end_.toNat) :
    (memoryGetNextEntry syspage entries start end_ = none ∧
        ∀ a, start.toNat ≤ a → a < end_.toNat → ¬Covered (syspage :: entries) a) ∨
      ∃ entry, memoryGetNextEntry syspage entries start end_ = some entry ∧
        First start end_ (syspage :: entries) entry := by
  have hne : start ≠ end_ := by
    rintro rfl
    omega
  have hnone : Minimal start end_ [] ⟨-1, 0, .reserved⟩ := Or.inl ⟨rfl, fun a _ _ h => by
    simp [Covered] at h⟩
  have hmin := minimal_foldl hlt entries (minimal_overlapped hlt hsyspage hnone)
  rw [List.nil_append, List.singleton_append] at hmin
  simp only [memoryGetNextEntry, if_neg hne]
  generalize entries.foldl (minTurn start end_) _ = minEntry at hmin ⊢
  cases hmin with
  | inl hno =>
      refine Or.inl ⟨?_, hno.2⟩
      rw [if_neg (not_not.mpr hno.1)]
  | inr hfirst =>
      refine Or.inr ⟨minEntry, ?_, hfirst⟩
      rw [if_pos]
      intro hlast
      have h1 := hfirst.nonempty
      have h2 := hfirst.end_le
      have h3 := end_.isLt
      rw [hlast, toNat_neg_one] at h1
      omega

end
end Plo.Hal.Memory
