import Plo.Base.Bump
import Plo.Base.WordMem
import Plo.Syspage.Maps

/-!
The heap behind the system page, in memory. The system page lies at the start of the heap
and its word `size` is kept there with the rest of the header; `heapTop` and `heapEnd` are
the loader's own. A block starts where the one before it ended, and the alignment is applied
to its end.
-/
namespace Plo.Syspage
variable {w : Nat} {σ : Type}

/-- Where the linker script puts the heap, and where the kernel's header puts the word
`size` in the system page. The header ends at an address, rounding included. -/
structure HeapLayout (w : Nat) where
  heapBase : BitVec w
  heapLimit : BitVec w
  sizeofSyspage : BitVec w
  offsetofSize : BitVec w
  host : Host w
  wide : 3 < w
  size_inside : offsetofSize.toNat + w / 8 ≤ sizeofSyspage.toNat
  header_room : roundUp 8 (heapBase.toNat + sizeofSyspage.toNat) < 2 ^ w

/-- `syspage_common`, with the memory that `syspage` points into. -/
structure Heap (w : Nat) where
  syspage : BitVec w
  heapTop : BitVec w
  heapEnd : BitVec w
  mem : BitVec w → UInt8

namespace Heap

def sizeWord (L : HeapLayout w) (s : Heap w) : BitVec w := s.syspage + L.offsetofSize

/-- `syspage->size`. -/
def size (L : HeapLayout w) (s : Heap w) : BitVec w := L.host.load s.mem (s.sizeWord L)

def setSize (L : HeapLayout w) (s : Heap w) (size : BitVec w) : Heap w :=
  { s with mem := L.host.store s.mem (s.sizeWord L) size }

/-- `syspage_init`. What it and the HAL store into the header's other fields is in `mem`. -/
def init (L : HeapLayout w) (mem : BitVec w → UInt8) : Heap w :=
  let heapTop := alignAddr (L.heapBase + L.sizeofSyspage) (8 : BitVec w)
  setSize L ⟨L.heapBase, heapTop, L.heapLimit, mem⟩ (heapTop - L.heapBase)

/-- `syspage_alloc`: the address returned, none for `NULL`, and the state after it. -/
def alloc (L : HeapLayout w) (s : Heap w) (size : BitVec w) : Option (BitVec w) × Heap w :=
  let newTop := alignAddr (s.heapTop + size) (8 : BitVec w)
  if newTop ≥ s.heapEnd then (none, s)
  else (some s.heapTop, setSize L { s with heapTop := newTop } (newTop - s.syspage))

variable {L : HeapLayout w} {s : Heap w} {size : BitVec w}

@[simp] theorem setSize_heapTop : (s.setSize L size).heapTop = s.heapTop := rfl

@[simp] theorem size_setSize : (s.setSize L size).size L = size :=
  L.host.load_store_self s.mem size

/-- The bytes of the word `size`. -/
def InSize (L : HeapLayout w) (s : Heap w) (a : BitVec w) : Prop :=
  (a - s.sizeWord L).toNat < w / 8

instance (a : BitVec w) : Decidable (s.InSize L a) := inferInstanceAs (Decidable (_ < _))

theorem setSize_mem {a : BitVec w} (ha : ¬s.InSize L a) : (s.setSize L size).mem a = s.mem a :=
  if_neg ha

/-- Everything a request can do. -/
theorem alloc_cases (L : HeapLayout w) (s : Heap w) (size : BitVec w) :
    (s.heapEnd ≤ alignAddr (s.heapTop + size) (8 : BitVec w) ∧ s.alloc L size = (none, s)) ∨
    (alignAddr (s.heapTop + size) (8 : BitVec w) < s.heapEnd ∧
      s.alloc L size = (some s.heapTop,
        setSize L { s with heapTop := alignAddr (s.heapTop + size) (8 : BitVec w) }
          (alignAddr (s.heapTop + size) (8 : BitVec w) - s.syspage))) := by
  by_cases hge : alignAddr (s.heapTop + size) (8 : BitVec w) ≥ s.heapEnd
  · exact Or.inl ⟨hge, if_pos hge⟩
  · exact Or.inr ⟨BitVec.not_le.mp hge, if_neg hge⟩

theorem alloc_fixed (L : HeapLayout w) (s : Heap w) (size : BitVec w) :
    (s.alloc L size).2.syspage = s.syspage ∧ (s.alloc L size).2.heapEnd = s.heapEnd := by
  obtain ⟨-, h⟩ | ⟨-, h⟩ := alloc_cases L s size <;> rw [h] <;> exact ⟨rfl, rfl⟩

/-- The word `size` is all that a request stores. -/
theorem alloc_mem {a : BitVec w} (ha : ¬s.InSize L a) :
    (s.alloc L size).2.mem a = s.mem a := by
  obtain ⟨-, h⟩ | ⟨-, h⟩ := alloc_cases L s size
  · rw [h]
  · rw [h]
    exact setSize_mem ha

theorem alloc_failed (h : (s.alloc L size).1 = none) : (s.alloc L size).2 = s := by
  obtain ⟨-, heq⟩ | ⟨-, heq⟩ := alloc_cases L s size
  · rw [heq]
  · rw [heq] at h
    cases h

/-- The heap address that a request leads to, its end rounded up, is not past the last one. -/
def NoWrap (s : Heap w) (size : BitVec w) : Prop :=
  roundUp 8 (s.heapTop.toNat + size.toNat) < 2 ^ w

instance : Decidable (s.NoWrap size) := inferInstanceAs (Decidable (_ < _))

end Heap

section Words
variable {a b : BitVec w}

theorem toNat_eight_of_wide (hw : 3 < w) : (8 : BitVec w).toNat = 2 ^ 3 := by
  have hpow : 2 ^ 3 < 2 ^ w := Nat.pow_lt_pow_right (by decide) hw
  simp only [BitVec.ofNat_eq_ofNat, BitVec.toNat_ofNat]
  exact Nat.mod_eq_of_lt hpow

theorem eight_dvd_top (hw : 3 < w) : 8 ∣ 2 ^ w := Nat.pow_dvd_pow 2 hw.le

theorem toNat_alignAddr_eight (hw : 3 < w) (h : roundUp 8 (a.toNat + b.toNat) < 2 ^ w) :
    (alignAddr (a + b) (8 : BitVec w)).toNat = roundUp 8 (a.toNat + b.toNat) := by
  have hroom := (roundUp_lt_iff (by decide) (eight_dvd_top hw)).mp h
  have hsum : (a + b).toNat = a.toNat + b.toNat := BitVec.toNat_add_of_lt (by omega)
  rw [toNat_alignAddr (le_refl w) (toNat_eight_of_wide hw), hsum, Nat.mod_mod,
    Nat.mod_eq_of_lt (by omega)]
  rfl

/-- An end that is cut off comes back no higher than the aligned address it was added to. -/
theorem toNat_alignAddr_eight_wrap (hw : 3 < w) (ha : 8 ∣ a.toNat)
    (h : 2 ^ w ≤ roundUp 8 (a.toNat + b.toNat)) :
    (alignAddr (a + b) (8 : BitVec w)).toNat ≤ a.toNat := by
  have htop := eight_dvd_top hw
  have hover : ¬a.toNat + b.toNat + 7 < 2 ^ w := fun hlt =>
    absurd ((roundUp_lt_iff (by decide) htop).mpr hlt) (not_lt_of_ge h)
  have hroom := add_le_of_dvd_of_lt ha htop a.isLt
  have hb := b.isLt
  rw [toNat_alignAddr (le_refl w) (toNat_eight_of_wide hw), BitVec.toNat_add, Nat.mod_mod]
  cases Nat.lt_or_ge (a.toNat + b.toNat) (2 ^ w) with
  | inl hlt =>
    -- the sum is an address, and the rounding takes it to zero
    have hcut : (a.toNat + b.toNat + (2 ^ 3 - 1)) % 2 ^ w < 2 ^ 3 := by
      rw [Nat.mod_eq_sub_mod (by omega), Nat.mod_eq_of_lt (by omega)]
      omega
    rw [Nat.mod_eq_of_lt hlt, Nat.div_eq_of_lt hcut, Nat.zero_mul]
    exact Nat.zero_le _
  | inr hge =>
    have hcut : (a.toNat + b.toNat) % 2 ^ w = a.toNat + b.toNat - 2 ^ w := by
      rw [Nat.mod_eq_sub_mod hge, Nat.mod_eq_of_lt (by omega)]
    rw [hcut, Nat.mod_eq_of_lt (by omega)]
    exact roundUp_le (by decide) (by omega) ha

end Words

namespace Heap
variable {L : HeapLayout w} {s : Heap w} {size : BitVec w}

theorem init_heapTop (L : HeapLayout w) (mem : BitVec w → UInt8) :
    (init L mem).heapTop.toNat = roundUp 8 (L.heapBase.toNat + L.sizeofSyspage.toNat) :=
  toNat_alignAddr_eight L.wide L.header_room

theorem alloc_granted_iff (L : HeapLayout w) (h : s.NoWrap size) :
    (s.alloc L size).1 = some s.heapTop ↔
      roundUp 8 (s.heapTop.toNat + size.toNat) < s.heapEnd.toNat := by
  rw [← toNat_alignAddr_eight L.wide h, ← BitVec.lt_def]
  obtain ⟨hge, heq⟩ | ⟨hlt, heq⟩ := alloc_cases L s size
  · rw [heq]
    exact iff_of_false (Option.some_ne_none _).symm (BitVec.not_lt.mpr hge)
  · rw [heq]
    exact iff_of_true rfl hlt

/-- The limit test does not see a request that wraps: it is granted, and the top does not
move up. -/
theorem alloc_wraps (L : HeapLayout w) (htop : s.heapTop < s.heapEnd)
    (haligned : 8 ∣ s.heapTop.toNat) (h : ¬s.NoWrap size) :
    (s.alloc L size).1 = some s.heapTop ∧ (s.alloc L size).2.heapTop ≤ s.heapTop := by
  have hle : alignAddr (s.heapTop + size) (8 : BitVec w) ≤ s.heapTop :=
    BitVec.le_def.mpr (toNat_alignAddr_eight_wrap L.wide haligned (not_lt.mp h))
  obtain ⟨hge, -⟩ | ⟨-, heq⟩ := alloc_cases L s size
  · exact absurd (BitVec.le_trans hge hle) (BitVec.not_le.mpr htop)
  · rw [heq]
    exact ⟨rfl, hle⟩

end Heap

/-- The layout is the one of the platform. -/
structure HeapLayout.Agrees (L : HeapLayout w) (p : Platform w σ) : Prop where
  heapBase : L.heapBase = p.heapBase
  heapLimit : L.heapLimit = p.heapLimit
  sizeofSyspage : L.sizeofSyspage = p.sizeofSyspage

namespace Heap
variable {L : HeapLayout w} {p : Platform w σ} {s : Heap w} {c : Common w σ}

/-- The system page whose size is kept beside it and the one that holds it in memory. -/
structure Refines (L : HeapLayout w) (p : Platform w σ) (s : Heap w) (c : Common w σ) :
    Prop where
  syspage : s.syspage = p.heapBase
  heapEnd : s.heapEnd = p.heapLimit
  heapTop : s.heapTop = c.heapTop
  size : s.size L = c.size

theorem init_refines (h : L.Agrees p) (mem : BitVec w → UInt8) (hal : σ) :
    Refines L p (init L mem) (Syspage.init p hal) where
  syspage := h.heapBase
  heapEnd := h.heapLimit
  heapTop := by simp only [init, setSize_heapTop, Syspage.init, h.heapBase, h.sizeofSyspage]
  size := by simp only [init, size_setSize, Syspage.init, h.heapBase, h.sizeofSyspage]

theorem alloc_refines (h : Refines L p s c) (size : BitVec w) :
    (s.alloc L size).1 = (Syspage.alloc p c size).map Prod.fst ∧
      Refines L p (s.alloc L size).2 ((Syspage.alloc p c size).elim c Prod.snd) := by
  have htop := h.heapTop
  have hend := h.heapEnd
  obtain ⟨hge, heq⟩ | ⟨hlt, heq⟩ := alloc_cases L s size
  · rw [htop, hend] at hge
    have hc : Syspage.alloc p c size = none := if_pos hge
    rw [heq, hc]
    exact ⟨rfl, h⟩
  · rw [htop, hend] at hlt
    have hc : Syspage.alloc p c size = some _ := if_neg (BitVec.not_le.mpr hlt)
    rw [heq, hc]
    refine ⟨congrArg some htop, h.syspage, hend, ?_, ?_⟩
    · simp only [setSize_heapTop, htop, Option.elim_some]
    · simp only [size_setSize, htop, h.syspage, Option.elim_some]

/-- The requests of a list, whatever they return. -/
def allocAll (L : HeapLayout w) (s : Heap w) (sizes : List (BitVec w)) : Heap w :=
  sizes.foldl (fun s size => (s.alloc L size).2) s

theorem allocAll_refines {c' : Common w σ} {sizes : List (BitVec w)} (h : Refines L p s c)
    (hc : Syspage.allocAll p c sizes = some c') : Refines L p (s.allocAll L sizes) c' := by
  induction sizes generalizing s c with
  | nil =>
      cases hc
      exact h
  | cons size sizes ih =>
      have hstep := (alloc_refines h size).2
      simp only [Syspage.allocAll] at hc
      split at hc
      · cases hc
      · next heq =>
        rw [heq] at hstep
        exact ih hstep hc

theorem allocAll_mem {a : BitVec w} (ha : ¬s.InSize L a) (sizes : List (BitVec w)) :
    (s.allocAll L sizes).mem a = s.mem a := by
  induction sizes generalizing s with
  | nil => rfl
  | cons size sizes ih =>
      have hsys := (alloc_fixed L s size).1
      have ha' : ¬(s.alloc L size).2.InSize L a := by
        simp only [InSize, sizeWord, hsys]
        exact ha
      exact (ih ha').trans (alloc_mem ha)

/-- A request for a map entry does not wrap. -/
theorem noWrap_mapent (h : Refines L p s c) (htop : c.heapTop < p.heapLimit) :
    s.NoWrap p.sizeofMapent := by
  have hroom := p.heapLimit_room
  rw [BitVec.lt_def] at htop
  rw [NoWrap, roundUp_lt_iff (by decide) (eight_dvd_top L.wide), h.heapTop]
  omega

end Heap

end Plo.Syspage
