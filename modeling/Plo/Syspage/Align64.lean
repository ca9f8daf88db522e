import Mathlib.Order.Bounds.Basic
import Plo.Syspage.BestFit

/-!
`ALIGN_ADDR` where addresses have 64 bits. The alignment is an `unsigned int`, and so
is the mask made of it: widened with zeros, it takes the upper half of the address
away along with the low bits. Every address an entry is placed at is computed so.
-/
namespace Plo.Syspage

/-- The addresses that are rounded when a place is looked for in a map. -/
def roundedFrom (map : SysMap 64) (mapName : Option CString) (start : BitVec 64) :
    List (BitVec 64) :=
  if mapName ≠ none ∧ start = -1 then map.start :: map.entries.map MapEnt.end_
  else [if mapName = none then start else map.start + start]

/-- The least multiple of the alignment from an address on. -/
def LeastMultiple (align : BitVec 32) (addr : BitVec 64) (a : BitVec 64) : Prop :=
  IsLeast {m : Nat | align.toNat ∣ m ∧ addr.toNat ≤ m} a.toNat

section
variable {align : BitVec 32} {k : Nat}

theorem alignAddr_lt (hk : align.toNat = 2 ^ k) (addr : BitVec 64) :
    (alignAddr addr align).toNat < 2 ^ 32 := by
  rw [toNat_alignAddr (by decide) hk]
  exact (Nat.div_mul_le_self _ _).trans_lt (Nat.mod_lt _ (Nat.two_pow_pos 32))

theorem ne_zero_of_toNat (hk : align.toNat = 2 ^ k) : align ≠ 0 := by
  rintro rfl
  have := Nat.two_pow_pos k
  simp at hk
  omega

theorem firstAligned_isLeast (hk : align.toNat = 2 ^ k) (l : Nat) :
    IsLeast {m : Nat | align.toNat ∣ m ∧ l ≤ m} (firstAligned align l) := by
  have halign : AlignOk align := Or.inr ⟨k, hk⟩
  have hne := ne_zero_of_toNat hk
  refine ⟨⟨(alignedTo_firstAligned align l).resolve_left hne, le_firstAligned halign l⟩, ?_⟩
  rintro m ⟨hdvd, hle⟩
  exact firstAligned_le halign hle (Or.inr hdvd)

/-- The macro rounds up exactly where the result has no bit in the upper half. -/
theorem leastMultiple_alignAddr_iff (hk : align.toNat = 2 ^ k) (addr : BitVec 64) :
    LeastMultiple align addr (alignAddr addr align) ↔ firstAligned align addr.toNat < 2 ^ 32 := by
  have hleast := firstAligned_isLeast hk addr.toNat
  constructor
  · intro h
    rw [hleast.unique h]
    exact alignAddr_lt hk addr
  · intro hlt
    have hpos := Nat.two_pow_pos k
    have hpow : 2 ^ k ∣ 2 ^ 32 := by
      have hlt := align.isLt
      rw [hk] at hlt
      exact Nat.pow_dvd_pow 2 ((Nat.pow_lt_pow_iff_right (by decide)).mp hlt).le
    have hfirst : firstAligned align addr.toNat = (addr.toNat + (2 ^ k - 1)) / 2 ^ k * 2 ^ k := by
      rw [firstAligned, if_neg (ne_zero_of_toNat hk), hk]
    -- the multiple leaves room for one more below the end of the mask
    have hroom := add_le_of_dvd_of_lt (hfirst ▸ Nat.dvd_mul_left _ _) hpow hlt
    have hsum : addr.toNat + (2 ^ k - 1) < 2 ^ 32 := by
      have hdiv := Nat.div_add_mod (addr.toNat + (2 ^ k - 1)) (2 ^ k)
      have hmod := Nat.mod_lt (addr.toNat + (2 ^ k - 1)) hpos
      rw [Nat.mul_comm, ← hfirst] at hdiv
      omega
    have hrounds : (alignAddr addr align).toNat = firstAligned align addr.toNat := by
      rw [toNat_alignAddr (by decide) hk,
        Nat.mod_eq_of_lt (show addr.toNat + (2 ^ k - 1) < 2 ^ 64 by omega),
        Nat.mod_eq_of_lt hsum, hfirst]
    rw [LeastMultiple, hrounds]
    exact hleast

/-- The search never leaves the rounded addresses. -/
theorem bestFitScan_rounded {w : Nat} (size : BitVec w) (align : BitVec 32) (u a : BitVec w)
    (es : List (MapEnt w)) (best : Best w) :
    (bestFitScan size align u a es best).start = best.start ∨
      ∃ addr ∈ a :: es.map MapEnt.end_,
        (bestFitScan size align u a es best).start = alignAddr addr align := by
  induction es generalizing a best with
  | nil =>
      simp only [bestFitScan]
      rcases offer_cases best size (alignAddr a align) u with h | ⟨h, -⟩
      · exact Or.inl (by rw [h])
      · exact Or.inr ⟨a, List.mem_cons_self, by rw [h]⟩
  | cons e es ih =>
      simp only [bestFitScan, List.map_cons]
      rcases ih e.end_ (best.turn size (alignAddr a align) e) with hsame | ⟨addr, hmem, h⟩
      · rw [hsame]
        rcases turn_cases best size (alignAddr a align) e with h | ⟨h, -⟩
        · exact Or.inl (by rw [h])
        · exact Or.inr ⟨a, List.mem_cons_self, by rw [h]⟩
      · exact Or.inr ⟨addr, List.mem_cons_of_mem _ hmem, h⟩

/-- An entry is placed at one of the rounded addresses. -/
theorem entryPlace_rounded {map : SysMap 64} {mapName : Option CString}
    {start size place : BitVec 64} (h : entryPlace map mapName start size align = some place) :
    ∃ addr ∈ roundedFrom map mapName start, place = alignAddr addr align := by
  simp only [entryPlace] at h
  rw [roundedFrom]
  split at h
  · rename_i hbest
    rw [if_pos hbest]
    simp only [bestFit] at h
    split at h
    · cases h
      exact ⟨map.start, List.mem_cons_self, rfl⟩
    · rename_i last hlast
      have hscan := bestFitScan_eq size align map.end_ map.start map.entries ⟨-1, -1⟩
      simp only [hlast, Option.map_some, Option.getD_some] at hscan
      simp only [← hscan] at h
      split at h
      · cases h
      · rename_i hfound
        cases h
        rcases bestFitScan_rounded size align map.end_ map.start map.entries ⟨-1, -1⟩ with
          hsame | hrounded
        · exact absurd (Or.inr hsame) hfound
        · exact hrounded
  · rename_i hbest
    rw [if_neg hbest]
    generalize (if mapName = none then start else map.start + start) = addr at h ⊢
    split at h
    · cases h
    · cases h
      exact ⟨_, List.mem_singleton_self _, rfl⟩

end

/-- A map of sixteen pages from 4 GiB on. -/
def highMap : SysMap 64 :=
  ⟨⟨[0x68], by decide⟩, 0x100000000, 0x100010000, ⟨true, true, false, false, false, false⟩, 0, []⟩

end Plo.Syspage
