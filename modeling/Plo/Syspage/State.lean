import Plo.Lib.Types
import Plo.Base.Word

/-!
The system page that the loader builds for the kernel: memory maps with their
allocated entries, the program list, and the heap they are stored in. Addresses
are `w`-bit words; alignments are always 32-bit, as `unsigned int` is on every
target. Circular lists are kept as the sequence read from the list head.

The linker symbols, the structure sizes and the two HAL hooks that the system
page calls are parameters collected in `Platform`; `σ` is the HAL's own state.
-/
namespace Plo.Syspage

/-- `ALIGN_ADDR`. The macro does not convert its arguments: the mask is computed
in the type of `align` and then widened with zeros to the type of `addr`. -/
def alignAddr {w n : Nat} (addr : BitVec w) (align : BitVec n) : BitVec w :=
  if align ≠ 0 then
    (addr + (align - 1).setWidth w) &&& (~~~(align - 1)).setWidth w
  else addr

inductive EntryType where
  | reserved | allocated | temp | invalid
  deriving DecidableEq, Repr

/-- `mapent_t` without its list links. -/
structure MapEnt (w : Nat) where
  start : BitVec w
  end_ : BitVec w
  type : EntryType
  deriving DecidableEq, Repr

/-- The flags `mAttrRead` to `mAttrBufferable` of a map's attribute word. -/
structure Attrs where
  read : Bool
  write : Bool
  exec : Bool
  shareable : Bool
  cacheable : Bool
  bufferable : Bool
  deriving DecidableEq, Repr

/-- `syspage_map_t` without its list links. -/
structure SysMap (w : Nat) where
  name : CString
  start : BitVec w
  end_ : BitVec w
  attr : Attrs
  id : BitVec 8
  entries : List (MapEnt w)
  deriving DecidableEq

/-- `syspage_prog_t` without its list links. The heap is not cleared, so a field
that was never assigned has no value; an array cell likewise. -/
structure Prog (w : Nat) where
  argv : CString
  start : Option (BitVec w)
  end_ : Option (BitVec w)
  imaps : Option (List (Option (BitVec 8)))
  imapSz : Option (BitVec w)
  dmaps : Option (List (Option (BitVec 8)))
  dmapSz : Option (BitVec w)
  deriving DecidableEq

/-- What the linker script, the kernel's headers and the HAL provide. -/
structure Platform (w : Nat) (σ : Type) where
  heapBase : BitVec w
  heapLimit : BitVec w
  sizeofSyspage : BitVec w
  sizeofMap : BitVec w
  sizeofMapent : BitVec w
  sizeofProg : BitVec w
  sizePage : BitVec 32
  memoryGetNextEntry : σ → BitVec w → BitVec w → Option (MapEnt w)
  memoryAddMap : σ → BitVec w → BitVec w → Attrs → BitVec 32 → σ × Int
  /-- The heap does not reach the very top of the address space. -/
  heapLimit_room : heapLimit.toNat + sizeofMapent.toNat + 8 ≤ 2 ^ w
  sizeofMapent_pos : 0 < sizeofMapent.toNat

/-- `syspage_common` together with the system page it points to. -/
structure Common (w : Nat) (σ : Type) where
  heapTop : BitVec w
  size : BitVec w
  maps : List (SysMap w)
  progs : List (Prog w)
  hal : σ

variable {w : Nat} {σ : Type}

def init (p : Platform w σ) (hal : σ) : Common w σ :=
  let heapTop := alignAddr (p.heapBase + p.sizeofSyspage) (8 : BitVec w)
  { heapTop := heapTop, size := heapTop - p.heapBase, maps := [], progs := [], hal := hal }

/-- The allocated address and the new state, or nothing and no change. -/
def alloc (p : Platform w σ) (s : Common w σ) (size : BitVec w) :
    Option (BitVec w × Common w σ) :=
  let newTop := alignAddr (s.heapTop + size) (8 : BitVec w)
  if newTop ≥ p.heapLimit then none
  else some (s.heapTop, { s with heapTop := newTop, size := newTop - p.heapBase })

def mapGet (s : Common w σ) (name : CString) : Option (SysMap w) :=
  s.maps.find? (fun map => name = map.name)

theorem alloc_lists {p : Platform w σ} {s s' : Common w σ} {size a : BitVec w}
    (h : alloc p s size = some (a, s')) :
    s'.maps = s.maps ∧ s'.progs = s.progs ∧ s'.hal = s.hal := by
  simp only [alloc] at h
  split at h
  · cases h
  · cases h
    exact ⟨rfl, rfl, rfl⟩

/-- The state after blocks of the given sizes were taken one after another. -/
def allocAll (p : Platform w σ) : Common w σ → List (BitVec w) → Option (Common w σ)
  | s, [] => some s
  | s, size :: sizes =>
    match alloc p s size with
    | none => none
    | some (_, s) => allocAll p s sizes

theorem allocAll_append {p : Platform w σ} {s : Common w σ} (l₁ l₂ : List (BitVec w)) :
    allocAll p s (l₁ ++ l₂) = (allocAll p s l₁).bind (fun s' => allocAll p s' l₂) := by
  induction l₁ generalizing s with
  | nil => rfl
  | cons size l₁ ih =>
      simp only [List.cons_append, allocAll]
      cases alloc p s size with
      | none => rfl
      | some r => exact ih

section Align
variable {n k : Nat} {addr : BitVec w} {align : BitVec n}

/-- The value `ALIGN_ADDR` computes for a power of two: the sum is cut to the
width of the address, and what is left also to the width of the alignment. -/
theorem toNat_alignAddr (hn : n ≤ w) (h : align.toNat = 2 ^ k) :
    (alignAddr addr align).toNat =
      (addr.toNat + (2 ^ k - 1)) % 2 ^ w % 2 ^ n / 2 ^ k * 2 ^ k := by
  have hpos : 0 < 2 ^ k := Nat.two_pow_pos k
  have hlt := align.isLt
  have hk : k < n := (Nat.pow_lt_pow_iff_right (by decide : 1 < 2)).mp (h ▸ hlt)
  have hne : align ≠ 0 := by
    rintro rfl
    simp only [BitVec.ofNat_eq_ofNat, BitVec.toNat_ofNat, Nat.zero_mod] at h
    omega
  have h1 : (1 : BitVec n).toNat = 1 := by
    have hn0 : 0 < n := by omega
    simpa using hn0
  have hsub : (align - 1).toNat = 2 ^ k - 1 := by
    have hle : (1 : BitVec n) ≤ align := by
      rw [BitVec.le_def, h1]
      omega
    rw [BitVec.toNat_sub_of_le hle, h1, h]
  have hnot : (~~~(align - 1)).toNat = 2 ^ n - 2 ^ k := by
    rw [BitVec.toNat_not, hsub]
    omega
  rw [alignAddr, if_pos hne, BitVec.toNat_and, BitVec.toNat_add,
    BitVec.toNat_setWidth_of_le hn, BitVec.toNat_setWidth_of_le hn, hsub, hnot,
    land_highMask _ (by omega)]

end Align

/-- The alignments a caller may pass: none, or a power of two. -/
def AlignOk {n : Nat} (align : BitVec n) : Prop := align = 0 ∨ ∃ k, align.toNat = 2 ^ k

def AlignedTo {n : Nat} (align : BitVec n) (a : Nat) : Prop := align = 0 ∨ align.toNat ∣ a

section Rounding
variable {n : Nat} {addr : BitVec w} {align : BitVec n}

@[simp] theorem alignAddr_zero : alignAddr addr 0#n = addr := by
  simp [alignAddr]

theorem alignAddr_eq_of_le {k : Nat} (hn : n ≤ w) (h : align.toNat = 2 ^ k)
    (hle : addr ≤ alignAddr addr align) :
    (alignAddr addr align).toNat = (addr.toNat + (2 ^ k - 1)) / 2 ^ k * 2 ^ k := by
  have hlt := align.isLt
  have hpos : 0 < 2 ^ k := Nat.two_pow_pos k
  have hpow : 2 ^ n ≤ 2 ^ w := Nat.pow_le_pow_right (by decide) hn
  have haddr := addr.isLt
  have hval : (alignAddr addr align).toNat = _ := toNat_alignAddr hn h
  rw [BitVec.le_def, hval] at hle
  have hround : (addr.toNat + (2 ^ k - 1)) % 2 ^ w % 2 ^ n / 2 ^ k * 2 ^ k ≤
      (addr.toNat + (2 ^ k - 1)) % 2 ^ w % 2 ^ n := Nat.div_mul_le_self _ _
  have hmod : (addr.toNat + (2 ^ k - 1)) % 2 ^ w % 2 ^ n ≤
      (addr.toNat + (2 ^ k - 1)) % 2 ^ w := Nat.mod_le _ _
  -- a sum that left either width comes back below the address
  have hw : addr.toNat + (2 ^ k - 1) < 2 ^ w := by
    by_contra hge
    rw [Nat.not_lt] at hge
    have hcut : (addr.toNat + (2 ^ k - 1)) % 2 ^ w = addr.toNat + (2 ^ k - 1) - 2 ^ w := by
      rw [Nat.mod_eq_sub_mod hge, Nat.mod_eq_of_lt (by omega)]
    omega
  rw [Nat.mod_eq_of_lt hw] at hle hround hmod hval
  have hn' : addr.toNat + (2 ^ k - 1) < 2 ^ n := by
    by_contra hge
    rw [Nat.not_lt] at hge
    have hcut : (addr.toNat + (2 ^ k - 1)) % 2 ^ n ≤ addr.toNat + (2 ^ k - 1) - 2 ^ n := by
      rw [Nat.mod_eq_sub_mod hge]
      exact Nat.mod_le _ _
    omega
  rw [hval, Nat.mod_eq_of_lt hn']

theorem alignedTo_alignAddr (hn : n ≤ w) (h : AlignOk align) :
    AlignedTo align (alignAddr addr align).toNat := by
  rcases h with rfl | ⟨k, hk⟩
  · exact Or.inl rfl
  · refine Or.inr ?_
    rw [toNat_alignAddr hn hk, hk]
    exact Nat.dvd_mul_left _ _

theorem alignAddr_le_of_aligned (hn : n ≤ w) (h : AlignOk align)
    (hle : addr ≤ alignAddr addr align) {a : Nat} (ha : addr.toNat ≤ a)
    (haligned : AlignedTo align a) : (alignAddr addr align).toNat ≤ a := by
  rcases h with rfl | ⟨k, hk⟩
  · simpa using ha
  · rw [alignAddr_eq_of_le hn hk hle]
    apply div_mul_le_of_dvd (Nat.two_pow_pos k) ha
    cases haligned with
    | inl heq =>
      subst heq
      have hpos := Nat.two_pow_pos k
      rw [← hk] at hpos
      simp at hpos
    | inr hdvd =>
      rwa [hk] at hdvd

theorem alignAddr_mono (hn : n ≤ w) (h : AlignOk align) {addr' : BitVec w}
    (hle : addr ≤ alignAddr addr align) (hle' : addr' ≤ alignAddr addr' align)
    (hadr : addr ≤ addr') : alignAddr addr align ≤ alignAddr addr' align := by
  have hval : addr.toNat ≤ (alignAddr addr' align).toNat :=
    BitVec.le_def.mp (BitVec.le_trans hadr hle')
  exact BitVec.le_def.mpr
    (alignAddr_le_of_aligned hn h hle hval (alignedTo_alignAddr hn h))

end Rounding

end Plo.Syspage
