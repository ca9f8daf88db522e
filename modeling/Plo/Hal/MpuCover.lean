import Mathlib.Data.Fintype.Basic
import Plo.Hal.MpuGenerate

/-!
Decoding back what `mpu_regionAlloc` stored. Apart from three ranges of more than
2 GiB, whose regions are given a size field of zero, the regions of a map grant
its attributes on exactly its range.
-/
namespace Plo.Hal
open Plo.Syspage (Attrs)

/-- The access a map's attributes stand for: privileged code may always write. -/
def attrsAccess (attr : Attrs) : Access where
  xn := !attr.exec
  ap := if attr.write then 3 else if attr.read then 2 else 1
  tex := 0
  s := attr.shareable
  c := attr.cacheable
  b := attr.bufferable

section Attributes
variable (attr : Attrs) (enable : BitVec 32)

theorem attrBits_regionAttrs : AttrBits (regionAttrs attr enable) := by
  obtain ⟨r, w, x, s, c, b⟩ := attr
  simp only [AttrBits, regionAttrs]
  generalize decide (enable ≠ 0) = e
  revert r w x s c b e
  decide

theorem grantBits_regionAttrs :
    grantBits (regionAttrs attr enable) = some (attrsAccess attr) := by
  obtain ⟨r, w, x, s, c, b⟩ := attr
  simp only [regionAttrs]
  generalize decide (enable ≠ 0) = e
  revert r w x s c b e
  decide

theorem enable_regionAttrs : (regionAttrs attr enable).getLsbD 0 = decide (enable ≠ 0) := by
  obtain ⟨r, w, x, s, c, b⟩ := attr
  simp only [regionAttrs]
  generalize decide (enable ≠ 0) = e
  revert r w x s c b e
  decide

theorem grantBits_holeAttr (rasrAttr : BitVec 32) : grantBits (holeAttr rasrAttr) = none := by
  have hap : (accessBits (holeAttr rasrAttr)).ap = 0 := by
    apply BitVec.eq_of_getLsbD_eq
    intro i hi
    have hone : (1 : BitVec 32).getLsbD (24 + i) = false := by simp
    simp only [accessBits, holeAttr, BitVec.getLsbD_extractLsb', BitVec.getLsbD_and, hone,
      Bool.and_false]
    simp
  rw [grantBits, if_pos hap]

end Attributes

section Shape
variable {m : MpuCommon} {idx lo hi : Nat} {attr : BitVec 32} {rs : List MpuRegion}

theorem Span.decode (h : Span rs attr lo hi) (a : BitVec 32) :
    decode rs a = if attr.getLsbD 0 = true ∧ lo ≤ a.toNat ∧ a.toNat < hi then grantBits attr
      else none := by
  split
  · next hin => exact decode_of_covered h.grants ((h.covers a).mpr hin)
  · next hout => exact decode_of_not_covered (mt (h.covers a).mp hout)

theorem Shape.decode (h : Shape m idx attr lo hi rs) (a : BitVec 32) :
    decode rs a = if attr.getLsbD 0 = true ∧ lo ≤ a.toNat ∧ a.toNat < hi then grantBits attr
      else none := by
  cases h with
  | direct span => exact span.decode a
  | @cut r rs alo ahi holeStart holeEnd hne large hole free surplus order =>
      have hbit : (holeAttr attr).getLsbD 0 = attr.getLsbD 0 := by simp [holeAttr]
      by_cases hin : Covered rs a
      · rw [← List.singleton_append, decode_append_of_covered hin, hole.decode, if_pos
          ((hole.covers a).mp hin), grantBits_holeAttr, if_neg]
        have hcov := (hole.covers a).mp hin
        rintro ⟨-, hlo, hhi⟩
        omega
      · rw [← List.singleton_append, decode_append_of_not_covered hin, large.decode]
        have hnot := mt (hole.covers a).mpr hin
        rw [hbit] at hnot
        refine if_congr (and_congr_right fun hen => ?_) rfl rfl
        have hout : ¬ (holeStart.toNat ≤ a.toNat ∧ a.toNat < rangeEnd holeEnd) :=
          fun h => hnot ⟨hen, h⟩
        omega

end Shape

section Table
variable (region : Nat → MpuRegion) (idx : Nat) (rs : List MpuRegion)

theorem place_below {i : Nat} (hi : i < idx) : place region idx rs i = region i := by
  induction rs generalizing region idx with
  | nil => rfl
  | cons r rs ih =>
      rw [place, ih _ _ (by omega), Function.update_of_ne (by omega)]

theorem place_above {i : Nat} (hi : idx + rs.length ≤ i) : place region idx rs i = region i := by
  induction rs generalizing region idx with
  | nil => rfl
  | cons r rs ih =>
      rw [List.length_cons] at hi
      rw [place, ih _ _ (by omega), Function.update_of_ne (by omega)]

theorem map_place : (List.range' idx rs.length).map (place region idx rs) = rs := by
  induction rs generalizing region idx with
  | nil => rfl
  | cons r rs ih =>
      rw [List.length_cons, List.range'_succ, List.map_cons, place, ih,
        place_below _ _ _ (by omega), Function.update_self]

end Table

theorem alloc_appends {m : MpuCommon} {start end_ : BitVec 32} {attr : Attrs}
    {mapId enable : BitVec 32} {P : List MpuRegion → Prop}
    (hP : Outcome m m.regCnt (regionGenerate m m.regCnt start end_ (regionAttrs attr enable)) P)
    (hok : (regionAlloc m start end_ attr mapId enable).2 = EOK) :
    ∃ rs, P rs ∧
      (regionAlloc m start end_ attr mapId enable).1.region = place m.region m.regCnt rs ∧
      (regionAlloc m start end_ attr mapId enable).1.regCnt = m.regCnt + rs.length ∧
      (regionAlloc m start end_ attr mapId enable).1.regMax = m.regMax ∧
      (m.regCnt ≤ m.regMax → m.regCnt + rs.length ≤ m.regMax) := by
  obtain ⟨rs, hm, hidx, hmax, hrs⟩ := hP
  unfold regionAlloc at hok ⊢
  dsimp only at hok ⊢
  split at hok
  · next hres => exact absurd hok hres
  · next hres =>
    rw [if_neg hres]
    refine ⟨rs, hrs (not_not.mp hres), ?_, hidx, ?_, fun h => hidx ▸ hmax h⟩
    · simp only [regionAssignMap, hm]
    · simp only [regionAssignMap, hm]

section Wide
variable {start end_ : BitVec 32}

/-- The wide ranges are taken for three significant bits of a 33-bit size. -/
theorem generate_wide (hwide : WideRange start end_) (m : MpuCommon) (idx : Nat)
    (attr : BitVec 32) :
    regionGenerate m idx start end_ attr = regionCalculateAndSet m idx start end_ 33 attr := by
  have hbranch (hvalid : ¬ (end_ ≠ 0 ∧ end_ ≤ start)) (hsize : ¬ end_ - start = 0)
      (hpow : ¬ (end_ - start = 1#32 <<< (end_ - start).ctz.toNat ∧
        start &&& (end_ - start - 1) = 0))
      (hctz : (start ||| end_).ctz.toNat = 30)
      (hsig : 32 - (start ^^^ (end_ - 1)).clz.toNat - 30 ≤ 3) :
      regionGenerate m idx start end_ attr = regionCalculateAndSet m idx start end_ 33 attr := by
    unfold regionGenerate regionGenerateWith
    dsimp only
    rw [if_neg hvalid, if_neg hsize, if_neg hpow, hctz, if_neg (by decide), if_pos hsig]
  rcases hwide with ⟨rfl, rfl⟩ | ⟨rfl, rfl⟩ | ⟨rfl, rfl⟩ <;>
    exact hbranch (by decide +kernel) (by decide +kernel) (by decide +kernel)
      (by decide +kernel) (by decide +kernel)

/-- Size bit 33 is stored as a region of two bytes at the bottom. -/
theorem not_covers_wide (idx : Nat) (srd : BitVec 8) {attr : BitVec 32} (hattr : AttrBits attr) :
    ¬ (regionEntry idx (start &&& ~~~((1#32 <<< 33) - 1)) srd 33 attr).Covers 0x40000000 := by
  rintro ⟨-, hbase, -⟩
  have hsize : (regionEntry idx (start &&& ~~~((1#32 <<< 33) - 1)) srd 33 attr).sizeBit = 1 := by
    rw [MpuRegion.sizeBit, sizeField_entry _ _ _ _ hattr]
    rfl
  have hmask : ~~~((1#32 <<< 33) - 1) = 0 := by decide
  have hrbar := rbar_entry_div idx (start &&& ~~~((1#32 <<< 33) - 1)) srd 5 le_rfl attr
  rw [hmask] at hrbar
  rw [hsize, hmask] at hbase
  have hsame : (regionEntry idx (start &&& 0) srd 5 attr).rbar =
      (regionEntry idx (start &&& 0) srd 33 attr).rbar := rfl
  rw [hsame] at hrbar
  simp at hrbar hbase
  omega

end Wide

/-- After a successful call the regions it appended grant the map's attributes on
exactly its range, unless an enabled map has one of the wide ranges. -/
theorem regionAlloc_decodes_iff (m : MpuCommon) (start end_ : BitVec 32) (attr : Attrs)
    (mapId enable : BitVec 32) (hok : (regionAlloc m start end_ attr mapId enable).2 = EOK) :
    (∀ a, decode ((regionAlloc m start end_ attr mapId enable).1.slots m.regCnt
          (regionAlloc m start end_ attr mapId enable).1.regCnt) a =
        if enable ≠ 0 ∧ start.toNat ≤ a.toNat ∧ a.toNat < rangeEnd end_ then
          some (attrsAccess attr) else none) ↔
      enable = 0 ∨ ¬ WideRange start end_ := by
  have hattr := attrBits_regionAttrs attr enable
  by_cases hwide : WideRange start end_
  · have hout : Outcome m m.regCnt
        (regionGenerate m m.regCnt start end_ (regionAttrs attr enable))
        (fun rs => ∃ srd, rs = [regionEntry m.regCnt (start &&& ~~~((1#32 <<< 33) - 1)) srd 33
          (regionAttrs attr enable)]) := by
      rw [generate_wide hwide]
      exact .set fun _ => ⟨_, rfl⟩
    obtain ⟨rs, ⟨srd, rfl⟩, hregion, hcnt, -, -⟩ := alloc_appends hout hok
    rw [MpuCommon.slots, hcnt, hregion, Nat.add_sub_cancel_left, map_place]
    constructor
    · intro h
      by_contra hcon
      rw [not_or] at hcon
      have hin : start.toNat ≤ (0x40000000 : BitVec 32).toNat ∧
          (0x40000000 : BitVec 32).toNat < rangeEnd end_ := by
        rcases hwide with ⟨rfl, rfl⟩ | ⟨rfl, rfl⟩ | ⟨rfl, rfl⟩ <;> decide
      have hout : ¬ Covered [regionEntry m.regCnt (start &&& ~~~((1#32 <<< 33) - 1)) srd 33
          (regionAttrs attr enable)] 0x40000000 := by
        rintro ⟨r, hr, hc⟩
        rw [List.mem_singleton.mp hr] at hc
        exact not_covers_wide m.regCnt srd hattr hc
      have hat := h 0x40000000
      rw [if_pos ⟨hcon.1, hin⟩, decode_of_not_covered hout] at hat
      cases hat
    · rintro (rfl | hcon) a
      · rw [if_neg (by simp), decode_of_not_covered]
        rintro ⟨r, hr, hen, -⟩
        rw [List.mem_singleton.mp hr, enabled_entry, enable_regionAttrs] at hen
        simp at hen
      · exact absurd hwide hcon
  · refine iff_of_true ?_ (Or.inr hwide)
    obtain ⟨rs, hshape, hregion, hcnt, -, -⟩ := alloc_appends
      (generate_outcome m m.regCnt hattr hwide) hok
    intro a
    rw [MpuCommon.slots, hcnt, hregion, Nat.add_sub_cancel_left, map_place, hshape.decode,
      enable_regionAttrs, grantBits_regionAttrs]
    simp only [decide_eq_true_eq]

def mpu8 : MpuCommon := mpuInit 0x800 (by decide)

theorem regionAlloc_decodes_iff_ram :
    (regionAlloc mpu8 0x20000000 0x20060000 ⟨true, true, false, false, true, true⟩ 0 1).2 = EOK ∧
      decode ((regionAlloc mpu8 0x20000000 0x20060000
        ⟨true, true, false, false, true, true⟩ 0 1).1.slots mpu8.regCnt
          (regionAlloc mpu8 0x20000000 0x20060000
            ⟨true, true, false, false, true, true⟩ 0 1).1.regCnt) 0x2005ffff =
        some (attrsAccess ⟨true, true, false, false, true, true⟩) := by
  have hok : (regionAlloc mpu8 0x20000000 0x20060000
      ⟨true, true, false, false, true, true⟩ 0 1).2 = EOK := by decide +kernel
  refine ⟨hok, ?_⟩
  rw [(regionAlloc_decodes_iff mpu8 0x20000000 0x20060000 _ 0 1 hok).mpr (Or.inr (by decide)),
    if_pos (by decide)]

/-- The lower 3 GiB are accepted but none of them can be accessed. -/
theorem regionAlloc_loses_wide_range :
    (regionAlloc mpu8 0 0xc0000000 ⟨true, true, true, false, false, false⟩ 0 1).2 = EOK ∧
      decode ((regionAlloc mpu8 0 0xc0000000 ⟨true, true, true, false, false, false⟩ 0 1).1.slots
        mpu8.regCnt (regionAlloc mpu8 0 0xc0000000
          ⟨true, true, true, false, false, false⟩ 0 1).1.regCnt) 0x20000000 ≠
        some (attrsAccess ⟨true, true, true, false, false, false⟩) := by
  decide +kernel

end Plo.Hal
