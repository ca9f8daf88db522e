import Mathlib.Algebra.Order.Ring.Nat
import Mathlib.Data.List.Induction
import Mathlib.Tactic.Common

/-!
The regions of the ARMv7 memory protection unit, as the architecture defines
them. A region is a pair of register values; its size is a power of two, its base
a multiple of the size, and each eighth of it can be switched off. Of the enabled
regions over an address the one with the highest number decides.
-/
namespace Plo.Hal

/-- `mpu_region_t`: the values for RBAR and RASR. -/
structure MpuRegion where
  rbar : BitVec 32
  rasr : BitVec 32
  deriving DecidableEq

/-- The access RASR describes: execute never, access permissions, and the type
extension, shareable, cacheable and bufferable bits. -/
structure Access where
  xn : Bool
  ap : BitVec 3
  tex : BitVec 3
  s : Bool
  c : Bool
  b : Bool
  deriving DecidableEq

/-- The fields of RASR above the sub-region mask. -/
def accessBits (rasr : BitVec 32) : Access where
  xn := rasr.getLsbD 28
  ap := rasr.extractLsb' 24 3
  tex := rasr.extractLsb' 19 3
  s := rasr.getLsbD 18
  c := rasr.getLsbD 17
  b := rasr.getLsbD 16

/-- Permissions of zero grant nothing to anyone. -/
def grantBits (rasr : BitVec 32) : Option Access :=
  if (accessBits rasr).ap = 0 then none else some (accessBits rasr)

namespace MpuRegion

/-- The region spans `2 ^ sizeBit` bytes. -/
def sizeBit (r : MpuRegion) : Nat := (r.rasr.extractLsb' 1 5).toNat + 1

def srd (r : MpuRegion) : BitVec 8 := r.rasr.extractLsb' 8 8

def enabled (r : MpuRegion) : Bool := r.rasr.getLsbD 0

/-- The eighth of the region an address falls into. -/
def subregion (r : MpuRegion) (a : BitVec 32) : Nat :=
  a.toNat % 2 ^ r.sizeBit * 8 / 2 ^ r.sizeBit

def Covers (r : MpuRegion) (a : BitVec 32) : Prop :=
  r.enabled = true ∧ a.toNat / 2 ^ r.sizeBit = r.rbar.toNat / 2 ^ r.sizeBit ∧
    r.srd.getLsbD (r.subregion a) = false

instance (r : MpuRegion) (a : BitVec 32) : Decidable (r.Covers a) :=
  inferInstanceAs (Decidable (_ ∧ _ ∧ _))

end MpuRegion

/-- What the regions, in the order of their numbers, grant at an address. -/
def decode (rs : List MpuRegion) (a : BitVec 32) : Option Access :=
  rs.foldl (fun acc r => if r.Covers a then grantBits r.rasr else acc) none

def Covered (rs : List MpuRegion) (a : BitVec 32) : Prop := ∃ r ∈ rs, r.Covers a

section Decode
variable {rs rs' : List MpuRegion} {a : BitVec 32}

theorem covered_append : Covered (rs ++ rs') a ↔ Covered rs a ∨ Covered rs' a := by
  simp only [Covered, List.mem_append, or_and_right, exists_or]

theorem decode_concat (r : MpuRegion) :
    decode (rs ++ [r]) a = if r.Covers a then grantBits r.rasr else decode rs a := by
  simp only [decode, List.foldl_append, List.foldl_cons, List.foldl_nil]

theorem decode_of_not_covered (h : ¬ Covered rs a) : decode rs a = none := by
  induction rs using List.reverseRecOn with
  | nil => rfl
  | append_singleton rs r ih =>
      rw [covered_append, not_or] at h
      have hr : ¬ r.Covers a := fun hc => h.2 ⟨r, List.mem_singleton_self r, hc⟩
      rw [decode_concat, if_neg hr, ih h.1]

theorem covered_of_decode {g : Access} (h : decode rs a = some g) : Covered rs a := by
  by_contra hnot
  rw [decode_of_not_covered hnot] at h
  cases h

theorem covered_concat_iff {r : MpuRegion} (hr : ¬ r.Covers a) :
    Covered (rs ++ [r]) a ↔ Covered rs a := by
  rw [covered_append, or_iff_left]
  rintro ⟨r', hr', hc⟩
  exact hr (List.mem_singleton.mp hr' ▸ hc)

theorem decode_append_of_covered (h : Covered rs' a) : decode (rs ++ rs') a = decode rs' a := by
  induction rs' using List.reverseRecOn with
  | nil => simp [Covered] at h
  | append_singleton rs' r ih =>
      rw [← List.append_assoc, decode_concat, decode_concat]
      by_cases hr : r.Covers a
      · rw [if_pos hr, if_pos hr]
      · rw [if_neg hr, if_neg hr, ih ((covered_concat_iff hr).mp h)]

theorem decode_append_of_not_covered (h : ¬ Covered rs' a) :
    decode (rs ++ rs') a = decode rs a := by
  induction rs' using List.reverseRecOn with
  | nil => rw [List.append_nil]
  | append_singleton rs' r ih =>
      have hr : ¬ r.Covers a := fun hc => h (covered_append.mpr (Or.inr ⟨r, by simp, hc⟩))
      rw [← List.append_assoc, decode_concat, if_neg hr, ih (mt (covered_concat_iff hr).mpr h)]

theorem decode_of_covered {g : Option Access} (hg : ∀ r ∈ rs, grantBits r.rasr = g)
    (h : Covered rs a) : decode rs a = g := by
  induction rs using List.reverseRecOn with
  | nil => simp [Covered] at h
  | append_singleton rs r ih =>
      rw [decode_concat]
      split
      · exact hg r (by simp)
      · next hr =>
        exact ih (fun r' hr' => hg r' (List.mem_append_left _ hr')) ((covered_concat_iff hr).mp h)

end Decode

end Plo.Hal
