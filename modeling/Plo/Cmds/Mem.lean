import Mathlib.Data.List.Pairwise
import Plo.Syspage.State

/-!
Which addresses the commands `mem` and `dump` may touch. Both ask for the first
map whose range takes in an address and an end; `dump` gives the address itself
for the end, `mem` the first address behind the access.
-/
namespace Plo
variable {w : Nat} {σ : Type}

namespace Syspage

/-- The attributes of the first map found. -/
def mapRangeCheck (s : Common w σ) (start end_ : BitVec w) : Option Attrs :=
  (s.maps.find? fun map => map.start ≤ start ∧ end_ < map.end_).map (·.attr)

/-- `(mapAttr & attr) == attr` on the flags of two words. -/
def Attrs.includes (mapAttr attr : Attrs) : Bool :=
  (!attr.read || mapAttr.read) && (!attr.write || mapAttr.write) && (!attr.exec || mapAttr.exec) &&
    (!attr.shareable || mapAttr.shareable) && (!attr.cacheable || mapAttr.cacheable) &&
    (!attr.bufferable || mapAttr.bufferable)

def SysMap.Contains (map : SysMap w) (a : Nat) : Prop := map.start.toNat ≤ a ∧ a < map.end_.toNat

/-- No address belongs to two of the maps. -/
def MapsDisjoint (maps : List (SysMap w)) : Prop :=
  maps.Pairwise fun m m' => ∀ a, ¬ (m.Contains a ∧ m'.Contains a)

end Syspage

namespace Cmds
open Syspage

def mAttrRead : Attrs := ⟨true, false, false, false, false, false⟩

/-- `region_validator` of the command `mem`. -/
def regionValidator (s : Common w σ) (addr size : BitVec w) (attr : Attrs) : Bool :=
  match mapRangeCheck s addr (addr + size) with
  | none => false
  | some mapAttr => mapAttr.includes attr

/-- `region_validator` of the command `dump`; the ends of the range are not used. -/
def dumpRegionValidator (s : Common w σ) (curr : BitVec w) : Bool :=
  match mapRangeCheck s curr curr with
  | none => false
  | some attr => attr.includes mAttrRead

/-- All the addresses of the access belong to one map that has the attribute. -/
def AccessAllowed (s : Common w σ) (addr size : Nat) (attr : Attrs) : Prop :=
  ∃ map ∈ s.maps, (∀ a, addr ≤ a → a < addr + size → map.Contains a) ∧ map.attr.includes attr

/-- The access does not end where a map that has the attribute ends. If it reaches
the top of the address space, the first map from below it on to behind its wrapped
end, if there is one, has not the attribute. -/
def AwayFromEnds (s : Common w σ) (addr size : BitVec w) (attr : Attrs) : Prop :=
  if addr.toNat + size.toNat < 2 ^ w then
    ∀ map ∈ s.maps, map.start ≤ addr → map.end_.toNat = addr.toNat + size.toNat →
      ¬ map.attr.includes attr
  else
    ∀ map, s.maps.find? (fun map => map.start ≤ addr ∧ addr + size < map.end_) = some map →
      ¬ map.attr.includes attr

section Validator
variable {s : Common w σ} {addr size : BitVec w} {attr : Attrs}

theorem eq_of_contains {maps : List (SysMap w)} (hdisj : MapsDisjoint maps) {m m' : SysMap w}
    (hm : m ∈ maps) (hm' : m' ∈ maps) {a : Nat} (ha : m.Contains a) (ha' : m'.Contains a) :
    m = m' := by
  by_contra hne
  have hsymm : Std.Symm fun m m' : SysMap w => ∀ a, ¬ (m.Contains a ∧ m'.Contains a) :=
    ⟨fun _ _ h a hboth => h a hboth.symm⟩
  exact List.Pairwise.forall hdisj hm hm' hne a ⟨ha, ha'⟩

theorem regionValidator_iff : regionValidator s addr size attr = true ↔
    ∃ map, s.maps.find? (fun map => map.start ≤ addr ∧ addr + size < map.end_) = some map ∧
      map.attr.includes attr := by
  simp only [regionValidator, mapRangeCheck]
  cases s.maps.find? fun map => map.start ≤ addr ∧ addr + size < map.end_ with
  | none => simp
  | some map => simp

/-- Among disjoint maps there is at most one that takes in a range. -/
theorem find?_range_iff (hdisj : MapsDisjoint s.maps) {start end_ : BitVec w}
    (hle : start ≤ end_) {map : SysMap w} :
    s.maps.find? (fun map => map.start ≤ start ∧ end_ < map.end_) = some map ↔
      map ∈ s.maps ∧ map.start ≤ start ∧ end_ < map.end_ := by
  have hstart {m : SysMap w} (h : m.start ≤ start ∧ end_ < m.end_) : m.Contains start.toNat :=
    ⟨BitVec.le_def.mp h.1, Nat.lt_of_le_of_lt (BitVec.le_def.mp hle) (BitVec.lt_def.mp h.2)⟩
  constructor
  · intro hfind
    exact ⟨List.mem_of_find?_eq_some hfind, by simpa using List.find?_some hfind⟩
  · rintro ⟨hmem, hrange⟩
    have hsome : (s.maps.find? fun map => map.start ≤ start ∧ end_ < map.end_).isSome := by
      rw [List.find?_isSome]
      exact ⟨map, hmem, by simpa using hrange⟩
    obtain ⟨m, hm⟩ := Option.isSome_iff_exists.mp hsome
    have hm' : m.start ≤ start ∧ end_ < m.end_ := by simpa using List.find?_some hm
    rw [hm, eq_of_contains hdisj (List.mem_of_find?_eq_some hm) hmem (hstart hm') (hstart hrange)]

theorem contains_range_iff {map : SysMap w} {addr size : Nat} (hsize : 0 < size) :
    (∀ a, addr ≤ a → a < addr + size → map.Contains a) ↔
      map.start.toNat ≤ addr ∧ addr + size ≤ map.end_.toNat := by
  constructor
  · intro h
    have hfirst := h addr le_rfl (by omega)
    have hlast := h (addr + size - 1) (by omega) (by omega)
    simp only [SysMap.Contains] at hfirst hlast
    omega
  · intro h a hle hlt
    exact ⟨by omega, by omega⟩

/-- `dump` shows a byte exactly if it belongs to a readable map. -/
theorem dumpRegionValidator_iff (hdisj : MapsDisjoint s.maps) (curr : BitVec w) :
    dumpRegionValidator s curr = true ↔
      ∃ map ∈ s.maps, map.Contains curr.toNat ∧ map.attr.includes mAttrRead := by
  have hzero : dumpRegionValidator s curr = regionValidator s curr 0 mAttrRead := by
    rw [dumpRegionValidator, regionValidator, BitVec.ofNat_eq_ofNat, BitVec.add_zero]
  rw [hzero, regionValidator_iff, BitVec.ofNat_eq_ofNat, BitVec.add_zero]
  simp only [find?_range_iff hdisj (BitVec.le_refl curr)]
  simp only [SysMap.Contains, BitVec.le_def, BitVec.lt_def, and_assoc]

/-- Below the top of the address space the code asks for one address more than
the access has. -/
theorem regionValidator_below_top (hdisj : MapsDisjoint s.maps)
    (hsum : addr.toNat + size.toNat < 2 ^ w) :
    regionValidator s addr size attr = true ↔
      ∃ map ∈ s.maps, map.start.toNat ≤ addr.toNat ∧
        addr.toNat + size.toNat < map.end_.toNat ∧ map.attr.includes attr := by
  have hend : (addr + size).toNat = addr.toNat + size.toNat := by
    rw [BitVec.toNat_add, Nat.mod_eq_of_lt hsum]
  have hle : addr ≤ addr + size := by
    rw [BitVec.le_def, hend]
    exact Nat.le_add_right _ _
  rw [regionValidator_iff]
  simp only [find?_range_iff hdisj hle]
  simp only [BitVec.le_def, BitVec.lt_def, hend, and_assoc]

end Validator

/-- The command allows an access exactly if one map with the attribute holds all
of it, unless it ends with a map or reaches the top of the address space. -/
theorem regionValidator_right_iff (s : Common w σ) (hdisj : MapsDisjoint s.maps)
    (addr size : BitVec w) (hsize : 0 < size.toNat) (attr : Attrs) :
    (regionValidator s addr size attr = true ↔
        AccessAllowed s addr.toNat size.toNat attr) ↔
      AwayFromEnds s addr size attr := by
  simp only [AccessAllowed, contains_range_iff hsize, AwayFromEnds]
  split
  · next hsum =>
    rw [regionValidator_below_top hdisj hsum]
    constructor
    · intro hright map hmem hstart hend hattr
      rw [BitVec.le_def] at hstart
      obtain ⟨m, hm, hle, hlt, -⟩ := hright.mpr ⟨map, hmem, ⟨hstart, hend.ge⟩, hattr⟩
      -- both maps hold the first address of the access
      obtain rfl : m = map :=
        eq_of_contains hdisj hm hmem (a := addr.toNat) ⟨hle, by omega⟩ ⟨hstart, by omega⟩
      omega
    · intro haway
      constructor
      · rintro ⟨map, hmem, hstart, hlt, hattr⟩
        exact ⟨map, hmem, ⟨hstart, hlt.le⟩, hattr⟩
      · rintro ⟨map, hmem, ⟨hstart, hle⟩, hattr⟩
        refine ⟨map, hmem, hstart, lt_of_le_of_ne hle ?_, hattr⟩
        intro hend
        exact haway map hmem (BitVec.le_def.mpr hstart) hend.symm hattr
  · next hsum =>
    have hnone : ¬ ∃ map ∈ s.maps, (map.start.toNat ≤ addr.toNat ∧
        addr.toNat + size.toNat ≤ map.end_.toNat) ∧ map.attr.includes attr = true := by
      rintro ⟨map, -, ⟨-, hle⟩, -⟩
      have hlt := map.end_.isLt
      omega
    rw [iff_false_right hnone, regionValidator_iff, not_exists]
    exact forall_congr' fun map => not_and

/-- One readable map of a page. -/
def pageOnly : Common 32 Unit :=
  ⟨0, 0, [⟨⟨[0x70, 0x67], by decide⟩, 0x1000, 0x2000, mAttrRead, 0, []⟩], [], ()⟩

theorem regionValidator_right_iff_page :
    (regionValidator pageOnly 0x1000 4 mAttrRead = true ↔
        AccessAllowed pageOnly (0x1000#32).toNat (4#32).toNat mAttrRead) ↔
      AwayFromEnds pageOnly 0x1000 4 mAttrRead :=
  regionValidator_right_iff pageOnly (List.pairwise_singleton _ _) 0x1000 4 (by decide) mAttrRead

/-- The last word of the page is refused. -/
theorem last_word_refused :
    ¬ ∀ (s : Common 32 Unit), MapsDisjoint s.maps → ∀ (addr size : BitVec 32) (attr : Attrs),
      size.toNat = 1 ∨ size.toNat = 2 ∨ size.toNat = 4 ∨ size.toNat = 8 →
      (regionValidator s addr size attr = true ↔
        AccessAllowed s addr.toNat size.toNat attr) := by
  intro h
  have hall := h pageOnly (List.pairwise_singleton _ _) 0x1ffc 4 mAttrRead (by decide)
  have hallowed : AccessAllowed pageOnly (0x1ffc#32).toNat (4#32).toNat mAttrRead := by
    refine ⟨_, List.mem_singleton_self _, ?_, rfl⟩
    rw [contains_range_iff (by decide)]
    decide
  exact absurd (hall.mpr hallowed) (by decide)

end Cmds

end Plo
