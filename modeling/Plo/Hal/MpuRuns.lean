import Plo.Base.Run
import Plo.Hal.MpuCover

/-!
Sequences of `mpu_regionAlloc` calls. A later map may be given a region larger
than itself together with a hole, and both have a higher number than everything
before them; that they still override no earlier map rests on the overlap test,
which looks at every eighth of every earlier region.
-/
namespace Plo.Hal
open Plo.Syspage (Attrs)

section Overlap
variable {start end_ size : BitVec 32}

/-- The loop over the eighths misses none that is switched on. -/
theorem subregions_apart {n : Nat} {srStart : BitVec 32} {subregions : BitVec 8}
    (h : subregionsOverlap start end_ size n srStart subregions = false)
    (hsize : 0 < size.toNat) (hroom : srStart.toNat + n * size.toNat ≤ 2 ^ 32)
    {j : Nat} (hj : j < n) (hon : subregions.getLsbD j = false) {a : BitVec 32}
    (hlo : srStart.toNat + j * size.toNat ≤ a.toNat)
    (hhi : a.toNat < srStart.toNat + (j + 1) * size.toNat) : ¬ (start ≤ a ∧ a ≤ end_) := by
  induction n generalizing srStart subregions j with
  | zero => omega
  | succ n ih =>
      have hone : (1 : BitVec 32).toNat = 1 := rfl
      rw [Nat.add_mul, Nat.one_mul] at hroom
      rw [Nat.add_mul, Nat.one_mul] at hhi
      have hend : (srStart + size - 1).toNat = srStart.toNat + size.toNat - 1 := by
        have hlt := size.isLt
        rcases toNat_add_cases srStart size with ⟨-, hadd⟩ | ⟨hge, hadd⟩ <;>
          rcases toNat_sub_cases (srStart + size) 1 with ⟨hle, hsub⟩ | ⟨hlt, hsub⟩ <;> omega
      unfold subregionsOverlap at h
      dsimp only at h
      split at h
      · cases h
      next hno =>
      cases j with
      | zero =>
          rintro ⟨hle, hge⟩
          refine hno ⟨?_, ?_, ?_⟩
          · apply BitVec.eq_of_getLsbD_eq
            intro i hi
            by_cases h0 : i = 0
            · subst h0
              rw [BitVec.getLsbD_and, hon, Bool.false_and]
              rfl
            · simp [h0]
          · rw [BitVec.le_def] at hle ⊢
            omega
          · rw [BitVec.le_def] at hge ⊢
            omega
      | succ j =>
          have hn : 1 ≤ n := by omega
          have hmul := Nat.mul_le_mul_right size.toNat hn
          rw [Nat.add_mul, Nat.one_mul] at hlo hhi
          have hnext : (srStart + size - 1 + 1).toNat = srStart.toNat + size.toNat := by
            rw [BitVec.toNat_add_of_lt (by rw [hend, hone]; omega), hend, hone]
            omega
          refine ih h (by omega) (by omega : j < n) ?_ (by omega) ?_
          · rw [BitVec.getLsbD_ushiftRight, Nat.add_comm]
            exact hon
          · rw [Nat.add_mul, Nat.one_mul]
            omega

theorem toNat_lsl_one {k : Nat} (hk : 3 ≤ k) (hk' : k ≤ 32) :
    (lsl 1 ((k : Int) - 3)).toNat = 2 ^ (k - 3) := by
  have hpow : 2 ^ (k - 3) < 2 ^ 32 := Nat.pow_lt_pow_right (by decide) (by omega)
  have hcast : ((k : Int) - 3).toNat = k - 3 := by omega
  rw [lsl, if_neg (by omega), hcast, BitVec.toNat_shiftLeft, Nat.shiftLeft_eq,
    show (1 : BitVec 32).toNat = 1 by rfl, Nat.one_mul, Nat.mod_eq_of_lt hpow]

theorem sizeBit_eq (r : MpuRegion) : ((r.rasr >>> 1) &&& 0x1f).toNat + 1 = r.sizeBit := by
  rw [MpuRegion.sizeBit, BitVec.extractLsb'_toNat, BitVec.toNat_and, BitVec.toNat_ushiftRight]
  congr 1
  exact Nat.and_two_pow_sub_one_eq_mod _ 5

theorem srd_eq (r : MpuRegion) : ((r.rasr >>> 8) &&& 0xff).setWidth 8 = r.srd := by
  apply BitVec.eq_of_toNat_eq
  rw [MpuRegion.srd, BitVec.extractLsb'_toNat, BitVec.toNat_setWidth, BitVec.toNat_and,
    BitVec.toNat_ushiftRight]
  have h := Nat.and_two_pow_sub_one_eq_mod (r.rasr.toNat >>> 8) 8
  rw [show (0xff : BitVec 32).toNat = 2 ^ 8 - 1 by rfl, h, Nat.mod_mod]

/-- The overlap test misses no address a region covers. -/
theorem region_apart {r : MpuRegion} (hseen : Seen r) (h : regionOverlap r start end_ = false)
    {a : BitVec 32} (hc : r.Covers a) : ¬ (start ≤ a ∧ a ≤ end_) := by
  obtain ⟨hen, hbase, hsrd⟩ := hc
  have h5 := hseen.size
  have h32 : r.sizeBit ≤ 32 := by
    have := (r.rasr.extractLsb' 1 5).isLt
    simp only [MpuRegion.sizeBit]
    omega
  have hrasr : ¬ r.rasr &&& 1 = 0 := by
    intro h0
    have hbit : (r.rasr &&& 1).getLsbD 0 = false := by rw [h0]; rfl
    rw [MpuRegion.enabled] at hen
    rw [BitVec.getLsbD_and, hen] at hbit
    exact absurd hbit (by decide)
  unfold regionOverlap at h
  rw [if_neg (not_or.mpr ⟨hseen.valid, hrasr⟩)] at h
  dsimp only at h
  rw [sizeBit_eq, srd_eq] at h
  have hq := toNat_lsl_one (by omega : 3 ≤ r.sizeBit) h32
  have hpos : 0 < 2 ^ (r.sizeBit - 3) := Nat.two_pow_pos _
  have hpow : 2 ^ r.sizeBit = 2 ^ (r.sizeBit - 3) * 8 := by
    rw [show (8 : Nat) = 2 ^ 3 by rfl, ← Nat.pow_add, Nat.sub_add_cancel (by omega)]
  have hstart := toNat_and_not_lowMask r.rbar h32
  have hdiv := Nat.div_add_mod a.toNat (2 ^ r.sizeBit)
  have hmod := Nat.mod_lt a.toNat (Nat.two_pow_pos r.sizeBit)
  rw [← hbase, Nat.mul_comm] at hstart
  have hsub : r.subregion a = a.toNat % 2 ^ r.sizeBit / 2 ^ (r.sizeBit - 3) := by
    rw [MpuRegion.subregion, hpow, Nat.mul_div_mul_right _ _ (by decide)]
  have hdiv' := Nat.div_add_mod (a.toNat % 2 ^ r.sizeBit) (2 ^ (r.sizeBit - 3))
  have hmod' := Nat.mod_lt (a.toNat % 2 ^ r.sizeBit) hpos
  rw [← hsub, Nat.mul_comm] at hdiv'
  refine subregions_apart h (by rw [hq]; exact hpos) ?_ (j := r.subregion a) ?_ hsrd ?_ ?_
  · rw [hq, hstart]
    have htop : 2 ^ r.sizeBit ∣ 2 ^ 32 := Nat.pow_dvd_pow 2 h32
    obtain ⟨c, hc⟩ := htop
    have hlt : a.toNat / 2 ^ r.sizeBit < c :=
      (Nat.div_lt_iff_lt_mul (Nat.two_pow_pos _)).mpr (by rw [Nat.mul_comm, ← hc]; exact a.isLt)
    rw [hc, Nat.mul_comm 8, ← hpow, ← Nat.mul_succ]
    exact Nat.mul_le_mul_left _ hlt
  · rw [hsub, Nat.div_lt_iff_lt_mul hpos, Nat.mul_comm, ← hpow]
    exact hmod
  · rw [hq, hstart]
    omega
  · rw [hq, hstart, Nat.add_mul]
    omega

end Overlap

structure MapCall where
  start : BitVec 32
  end_ : BitVec 32
  attr : Attrs
  mapId : BitVec 32
  enable : BitVec 32

/-- The table with the calls that succeeded so far. -/
structure MpuRun where
  mpu : MpuCommon
  maps : List MapCall

def allocMap (r : MpuRun) (q : MapCall) : MpuRun :=
  let res := regionAlloc r.mpu q.start q.end_ q.attr q.mapId q.enable
  ⟨res.1, if res.2 = EOK then r.maps ++ [q] else r.maps⟩

/-- An enabled map of less than 2 GiB, apart from those there are. -/
structure MapCall.Fair (r : MpuRun) (q : MapCall) : Prop where
  enabled : q.enable ≠ 0
  short : rangeEnd q.end_ - q.start.toNat < 2 ^ 31
  apart : ∀ p ∈ r.maps, RangesApart p.start p.end_ q.start q.end_

/-- Used slots are such that the overlap test sees them, the others are off, and
the used slots give each map its attributes. -/
structure MpuRun.Inv (r : MpuRun) : Prop where
  count : r.mpu.regCnt ≤ r.mpu.regMax
  seen : ∀ i < r.mpu.regCnt, Seen (r.mpu.region i)
  off : ∀ i, r.mpu.regCnt ≤ i → (r.mpu.region i).enabled = false
  grants : ∀ q ∈ r.maps, ∀ a : BitVec 32, q.start.toNat ≤ a.toNat → a.toNat < rangeEnd q.end_ →
    decode (r.mpu.slots 0 r.mpu.regCnt) a = some (attrsAccess q.attr)

theorem slots_place (m : MpuCommon) (idx : Nat) (rs : List MpuRegion) :
    (List.range' 0 (idx + rs.length)).map (place m.region idx rs) = m.slots 0 idx ++ rs := by
  rw [← List.range'_append_1, List.map_append, Nat.zero_add, map_place, MpuCommon.slots,
    Nat.sub_zero]
  congr 1
  refine List.map_congr_left ?_
  intro i hi
  rw [List.mem_range'_1] at hi
  exact place_below _ _ _ (by omega)

theorem invalidRegion_off (i : Nat) : (invalidRegion i).enabled = false := by
  simp [invalidRegion, MpuRegion.enabled]

section Step
variable {m : MpuCommon} {start end_ : BitVec 32} {attr : Attrs} {mapId enable : BitVec 32}

/-- A failing call invalidates what it stored. -/
theorem alloc_restores {P : List MpuRegion → Prop}
    (hP : Outcome m m.regCnt (regionGenerate m m.regCnt start end_ (regionAttrs attr enable)) P)
    (hcount : m.regCnt ≤ m.regMax)
    (hres : (regionAlloc m start end_ attr mapId enable).2 ≠ EOK) :
    (regionAlloc m start end_ attr mapId enable).1.regCnt = m.regCnt ∧
      (regionAlloc m start end_ attr mapId enable).1.regMax = m.regMax ∧
      (∀ i < m.regCnt, (regionAlloc m start end_ attr mapId enable).1.region i = m.region i) ∧
      ∀ i, (regionAlloc m start end_ attr mapId enable).1.region i = m.region i ∨
        (regionAlloc m start end_ attr mapId enable).1.region i = invalidRegion i := by
  simp only [regionAlloc] at hres ⊢
  rcases hgen : regionGenerate m m.regCnt start end_ (regionAttrs attr enable) with ⟨m', cur, res⟩
  rw [hgen] at hP
  obtain ⟨rs, rfl, rfl, hmax, -⟩ := hP
  have hcur := hmax hcount
  simp only [hgen] at hres hcur ⊢
  split at hres
  · next herr =>
    rw [if_pos herr]
    simp only [regionInvalidate]
    refine ⟨trivial, trivial, ?_, ?_⟩
    · intro i hi
      rw [if_neg (by unfold visits; omega), place_below _ _ _ hi]
    · intro i
      split
      · exact Or.inr rfl
      · next hout =>
        refine Or.inl ?_
        simp only [visits] at hout
        cases Nat.lt_or_ge i m.regCnt with
        | inl hlt =>
          exact place_below _ _ _ hlt
        | inr hge =>
          exact place_above _ _ _ (by omega)
  · exact absurd rfl hres

/-- The regions of a new map cover no address that earlier regions cover outside
its range. -/
theorem shape_apart {lo hi : Nat} {rasrAttr : BitVec 32} {rs : List MpuRegion}
    (h : Shape m m.regCnt rasrAttr lo hi rs) (hseen : ∀ i < m.regCnt, Seen (m.region i))
    {a : BitVec 32} (hold : Covered (m.slots 0 m.regCnt) a)
    (hout : ¬ (lo ≤ a.toNat ∧ a.toNat < hi)) : ¬ Covered rs a := by
  intro hin
  cases h with
  | direct span => exact hout ((span.covers a).mp hin).2
  | @cut r rs alo ahi holeStart holeEnd hne large hole free surplus order =>
      have hhole : holeStart.toNat ≤ a.toNat ∧ a.toNat < rangeEnd holeEnd := by
        rw [← List.singleton_append, covered_append, large.covers, hole.covers] at hin
        omega
      obtain ⟨r', hr', hc⟩ := hold
      obtain ⟨i, hi, rfl⟩ := List.mem_map.mp hr'
      rw [List.mem_range'_1] at hi
      have hfree : regionOverlap (m.region i) holeStart (holeEnd - 1) = false := by
        refine Bool.eq_false_iff.mpr (List.any_eq_false.mp free i ?_)
        rw [List.mem_range]
        omega
      refine region_apart (hseen i (by omega)) hfree hc ⟨hhole.1, ?_⟩
      rw [BitVec.le_def, toNat_sub_one holeEnd (by decide)]
      omega

end Step

theorem not_wide_of_short {start end_ : BitVec 32}
    (h : rangeEnd end_ - start.toNat < 2 ^ 31) : ¬ WideRange start end_ := by
  rintro (⟨rfl, rfl⟩ | ⟨rfl, rfl⟩ | ⟨rfl, rfl⟩) <;> revert h <;> decide

theorem Shape.seen {m : MpuCommon} {idx lo hi : Nat} {attr : BitVec 32} {rs : List MpuRegion}
    (h : Shape m idx attr lo hi rs) : ∀ r ∈ rs, Seen r := by
  cases h with
  | direct span => exact span.seen
  | cut _ large hole =>
      intro r hr
      cases List.mem_cons.mp hr with
      | inl heq =>
          subst heq
          exact large.seen _ (by simp)
      | inr hr => exact hole.seen _ hr

/-- The slots below the new count hold the old regions and the new ones. -/
theorem place_seen {region : Nat → MpuRegion} {idx i : Nat} {rs : List MpuRegion}
    (hold : ∀ i < idx, Seen (region i)) (hnew : ∀ r ∈ rs, Seen r) (hi : i < idx + rs.length) :
    Seen (place region idx rs i) := by
  cases Nat.lt_or_ge i idx with
  | inl hlt =>
      rw [place_below _ _ _ hlt]
      exact hold i hlt
  | inr hge =>
      refine hnew _ ?_
      have hin : place region idx rs i ∈ (List.range' idx rs.length).map (place region idx rs) :=
        List.mem_map_of_mem (by rw [List.mem_range'_1]; omega)
      rwa [map_place] at hin

/-- A map that is accepted gets its attributes and takes none from the others. -/
theorem allocMap_accepted (r : MpuRun) (q : MapCall) (h : r.Inv) (hq : q.Fair r)
    (hok : (regionAlloc r.mpu q.start q.end_ q.attr q.mapId q.enable).2 = EOK) :
    (allocMap r q).Inv := by
  obtain ⟨rs, hshape, hregion, hcnt, hmax, hroom⟩ := alloc_appends
    (generate_outcome r.mpu r.mpu.regCnt (attrBits_regionAttrs q.attr q.enable)
      (not_wide_of_short hq.short)) hok
  have hslots : (allocMap r q).mpu.slots 0 (allocMap r q).mpu.regCnt =
      r.mpu.slots 0 r.mpu.regCnt ++ rs := by
    rw [MpuCommon.slots, allocMap, hcnt, hregion, Nat.sub_zero, slots_place]
  have hmem : ∀ p ∈ (allocMap r q).maps, p ∈ r.maps ∨ p = q := by
    simp only [allocMap, if_pos hok, List.mem_append, List.mem_singleton]
    exact fun p hp => hp
  constructor
  · rw [allocMap, hcnt, hmax]
    exact hroom h.count
  · intro i hi
    rw [allocMap, hcnt] at hi
    rw [allocMap, hregion]
    exact place_seen h.seen hshape.seen hi
  · intro i hi
    rw [allocMap, hcnt] at hi
    rw [allocMap, hregion, place_above _ _ _ hi]
    exact h.off i (by omega)
  · intro p hp a hlo hhi
    rw [hslots]
    cases hmem p hp with
    | inl hp =>
        have hgrant := h.grants p hp a hlo hhi
        have hapart := hq.apart p hp
        simp only [RangesApart] at hapart
        rw [decode_append_of_not_covered
          (shape_apart hshape h.seen (covered_of_decode hgrant) (by omega)), hgrant]
    | inr heq =>
        subst heq
        have hdec := hshape.decode a
        rw [enable_regionAttrs, if_pos ⟨decide_eq_true hq.enabled, hlo, hhi⟩,
          grantBits_regionAttrs] at hdec
        rw [decode_append_of_covered (covered_of_decode hdec), hdec]

/-- A map that is refused leaves the regions of the others. -/
theorem allocMap_refused (r : MpuRun) (q : MapCall) (h : r.Inv) (hq : q.Fair r)
    (hno : (regionAlloc r.mpu q.start q.end_ q.attr q.mapId q.enable).2 ≠ EOK) :
    (allocMap r q).Inv := by
  obtain ⟨hcnt, hmax, hbelow, hother⟩ := alloc_restores
    (generate_outcome r.mpu r.mpu.regCnt (attrBits_regionAttrs q.attr q.enable)
      (not_wide_of_short hq.short)) h.count hno
  have hmaps : (allocMap r q).maps = r.maps := by simp only [allocMap, if_neg hno]
  constructor
  · rw [allocMap, hcnt, hmax]
    exact h.count
  · intro i hi
    rw [allocMap, hcnt] at hi
    rw [allocMap, hbelow i hi]
    exact h.seen i hi
  · intro i hi
    rw [allocMap, hcnt] at hi
    rw [allocMap]
    cases hother i with
    | inl hi' =>
        rw [hi']
        exact h.off i hi
    | inr hi' => rw [hi', invalidRegion_off]
  · intro p hp a hlo hhi
    rw [hmaps] at hp
    rw [← h.grants p hp a hlo hhi, MpuCommon.slots, MpuCommon.slots, allocMap, hcnt]
    congr 1
    refine List.map_congr_left ?_
    intro i hi
    rw [List.mem_range'_1] at hi
    exact hbelow i (by omega)

theorem allocMap_inv (r : MpuRun) (q : MapCall) (h : r.Inv) (hq : q.Fair r) :
    (allocMap r q).Inv := by
  by_cases hok : (regionAlloc r.mpu q.start q.end_ q.attr q.mapId q.enable).2 = EOK
  · exact allocMap_accepted r q h hq hok
  · exact allocMap_refused r q h hq hok

/-- After every call, each address of each map allocated so far has that map's
attributes in the whole table. -/
theorem fair_runs_keep_maps (type : BitVec 32) (htype : ((type >>> 8).setWidth 8).toNat ≤ 16)
    (r : MpuRun) (hr : Reachable allocMap (fun r q => q.Fair r) ⟨mpuInit type htype, []⟩ r) :
    ∀ q ∈ r.maps, ∀ a : BitVec 32, q.start.toNat ≤ a.toNat → a.toNat < rangeEnd q.end_ →
      decode (r.mpu.slots 0 16) a = some (attrsAccess q.attr) := by
  have hinv : r.Inv := by
    refine hr.invariant (I := MpuRun.Inv) ?_ allocMap_inv
    refine ⟨Nat.zero_le _, fun i hi => absurd hi (Nat.not_lt_zero i), ?_, by simp⟩
    intro i _
    simp only [mpuInit, regionInvalidate]
    split
    · exact invalidRegion_off i
    · rfl
  intro q hq a hlo hhi
  have hcount := hinv.count.trans r.mpu.regMax_le
  have hsplit : r.mpu.slots 0 16 =
      r.mpu.slots 0 r.mpu.regCnt ++ r.mpu.slots r.mpu.regCnt 16 := by
    simp only [MpuCommon.slots, Nat.sub_zero]
    rw [← List.map_append, show (16 : Nat) = r.mpu.regCnt + (16 - r.mpu.regCnt) by omega,
      ← List.range'_append_1, Nat.zero_add, Nat.add_sub_cancel_left]
  have hoff : ¬ Covered (r.mpu.slots r.mpu.regCnt 16) a := by
    rintro ⟨r', hr', hen, -⟩
    obtain ⟨i, hi, rfl⟩ := List.mem_map.mp hr'
    rw [List.mem_range'_1] at hi
    rw [hinv.off i hi.1] at hen
    cases hen
  rw [hsplit, decode_append_of_not_covered hoff, hinv.grants q hq a hlo hhi]

/-- Internal RAM of 384 KiB, which takes one region and six of its eighths. -/
def ramMap : MapCall := ⟨0x20000000, 0x20060000, ⟨true, true, false, false, true, true⟩, 0, 1⟩

/-- Flash without its first 4 KiB, which takes a larger region and a hole. -/
def flashMap : MapCall := ⟨0x60001000, 0x60400000, ⟨true, false, true, false, true, false⟩, 1, 1⟩

theorem fair_runs_keep_maps_ram :
    flashMap ∈ (allocMap (allocMap ⟨mpu8, []⟩ ramMap) flashMap).maps ∧
      decode ((allocMap (allocMap ⟨mpu8, []⟩ ramMap) flashMap).mpu.slots 0 16) 0x20000000 =
        some (attrsAccess ramMap.attr) := by
  have hmaps₁ : (allocMap ⟨mpu8, []⟩ ramMap).maps = [ramMap] := by
    simp only [allocMap]
    rw [if_pos (by decide +kernel)]
    rfl
  have hmaps₂ : (allocMap (allocMap ⟨mpu8, []⟩ ramMap) flashMap).maps = [ramMap, flashMap] := by
    rw [allocMap]
    dsimp only
    rw [if_pos (by decide +kernel), hmaps₁]
    rfl
  have hfair₁ : ramMap.Fair ⟨mpu8, []⟩ := ⟨by decide, by decide, by simp⟩
  have hfair₂ : flashMap.Fair (allocMap ⟨mpu8, []⟩ ramMap) := by
    refine ⟨by decide, by decide, ?_⟩
    rw [hmaps₁]
    simp only [List.mem_singleton, forall_eq]
    exact Or.inl (by decide)
  have hram : ramMap ∈ (allocMap (allocMap ⟨mpu8, []⟩ ramMap) flashMap).maps := by
    rw [hmaps₂]
    exact List.mem_cons_self
  refine ⟨by rw [hmaps₂]; simp, ?_⟩
  exact fair_runs_keep_maps 0x800 (by decide) _ (.step (.step .init hfair₁) hfair₂) ramMap hram
    0x20000000 (by decide) (by decide)

end Plo.Hal
