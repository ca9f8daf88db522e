import Plo.Hal.MpuRuns

/-!
Allocation of MPU regions on ARMv8-M, where a region has a base and a limit of its
own, and the regions as the architecture reads them: the table that the kernel is
handed grants exactly the maps that were accepted.
-/
namespace Plo.Hal.Armv8m
open Plo.Syspage (Attrs)

/-- `mpu_region_t`: the values for RBAR and RLAR. -/
structure Region where
  rbar : BitVec 32
  rlar : BitVec 32
  deriving DecidableEq

def MPU_MAX_REGIONS : Nat := 16

/-- `mpu_common_t`. -/
structure Common where
  type : BitVec 32
  regCnt : Nat
  regMax : Nat
  mapCnt : BitVec 32
  region : Nat → Region
  mapId : Nat → BitVec 32

def regionAttrsRlar (attr : Attrs) (enable : BitVec 32) : BitVec 32 :=
  let attrIndx : BitVec 8 :=
    (if attr.cacheable then 1 else 0) ||| (if attr.bufferable then 1 <<< 1 else 0)
  let execNever : BitVec 8 := if !attr.exec then 1 else 0
  (execNever.setWidth 32 <<< 4) ||| (attrIndx.setWidth 32 <<< 1) ||| (if enable ≠ 0 then 1 else 0)

def regionAttrsRbar (attr : Attrs) : BitVec 32 :=
  let ap : BitVec 8 := if attr.read then 1 else 0
  let ap : BitVec 8 := if attr.write then 1 else ap
  ((if attr.shareable then 1 else 0) <<< 4) ||| (ap.setWidth 32 <<< 1) |||
    (if !attr.exec then 1 else 0)

/-- The state, the index after the region, and the result. -/
def regionSet (m : Common) (idx : Nat) (start end_ rbarAttr rlarAttr mapId : BitVec 32) :
    Common × Nat × Int :=
  let size := end_ - start
  let limit := end_ - 1
  if idx ≥ m.regMax then (m, idx, -EPERM)
  -- An end of zero is the end of the address range.
  else if end_ ≠ 0 ∧ end_ ≤ start then (m, idx, -EINVAL)
  else if size ≠ 0 ∧ (size < 32 ∨ size &&& 0x1f ≠ 0 ∨ start &&& 0x1f ≠ 0) then (m, idx, -EPERM)
  else
    let limit := if size = 0 then 0xffffffff else limit
    let region : Region := ⟨start &&& ~~~0x1f ||| rbarAttr, limit &&& ~~~0x1f ||| rlarAttr⟩
    ({ m with
        region := Function.update m.region idx region
        mapId := Function.update m.mapId idx mapId }, idx + 1, EOK)

def visits (m : Common) (first last i : Nat) : Prop := first ≤ i ∧ i < last ∧ i < m.regMax

instance (m : Common) (first last i : Nat) : Decidable (visits m first last i) :=
  inferInstanceAs (Decidable (_ ∧ _ ∧ _))

/-- A disabled region, never executable. -/
def invalidRegion : Region := ⟨1, 0⟩

def regionInvalidate (m : Common) (first last : Nat) : Common :=
  { m with
    mapId := fun i => if visits m first last i then -1 else m.mapId i
    region := fun i => if visits m first last i then invalidRegion else m.region i }

/-- The number of regions the type register tells of, as far as there are slots. -/
def typeRegions (type : BitVec 32) : Nat :=
  let regMax := ((type >>> 8) &&& 0xff).toNat
  if regMax > MPU_MAX_REGIONS then MPU_MAX_REGIONS else regMax

/-- `mpu_init`, with what the type register reads as; `mpu_common` starts as zeros. -/
def mpuInit (type : BitVec 32) : Common :=
  regionInvalidate
    { type := type, regCnt := 0, regMax := typeRegions type, mapCnt := 0
      region := fun _ => ⟨0, 0⟩, mapId := fun _ => 0 } 0 MPU_MAX_REGIONS

/-- The memory attribute register that `mpu_init` writes where there are regions. -/
def MAIR0 : BitVec 32 := 0xee04aa00

def regionAlloc (m : Common) (c : MapCall) : Common × Int :=
  if m.regMax = 0 then (m, EOK)
  else
    let rbarAttr := regionAttrsRbar c.attr
    let rlarAttr := regionAttrsRlar c.attr c.enable
    match regionSet m m.regCnt c.start c.end_ rbarAttr rlarAttr c.mapId with
    | (m', regCur, res) =>
      if res ≠ EOK then (regionInvalidate m' m.regCnt regCur, res)
      else ({ m' with regCnt := regCur, mapCnt := m.mapCnt + 1 }, EOK)

/-- The part of `hal_syspage_t` about the MPU. -/
structure HalMpu where
  type : BitVec 32
  allocCnt : Nat
  table : List Region
  map : List (BitVec 32)

/-- `mpu_getHalData`, with the number of entries of the table of the system page. -/
def getHalData (m : Common) (syspageTableSize : Nat) : HalMpu :=
  let m := regionInvalidate m m.regCnt m.regMax
  let m := if m.regCnt > syspageTableSize then { m with regCnt := syspageTableSize } else m
  let left := syspageTableSize - m.regCnt
  { type := m.type
    allocCnt := m.regCnt
    table := (List.range m.regCnt).map m.region ++ List.replicate left invalidRegion
    map := (List.range m.regCnt).map m.mapId ++ List.replicate left (-1) }

/-! What the architecture makes of a region. -/

/-- How an address is shared, who may access it, whether it may be executed, and the
type of its memory. -/
structure Access where
  sh : BitVec 2
  ap : BitVec 2
  xn : Bool
  pxn : Bool
  memory : BitVec 8
  deriving DecidableEq

namespace Region

def Covers (r : Region) (a : BitVec 32) : Prop :=
  r.rlar.getLsbD 0 = true ∧ r.rbar.toNat / 2 ^ 5 ≤ a.toNat / 2 ^ 5 ∧
    a.toNat / 2 ^ 5 ≤ r.rlar.toNat / 2 ^ 5

instance (r : Region) (a : BitVec 32) : Decidable (r.Covers a) :=
  inferInstanceAs (Decidable (_ ∧ _ ∧ _))

/-- The memory type is a byte of the two attribute registers. -/
def access (r : Region) (mair : BitVec 64) : Access where
  sh := r.rbar.extractLsb' 3 2
  ap := r.rbar.extractLsb' 1 2
  xn := r.rbar.getLsbD 0
  pxn := r.rlar.getLsbD 4
  memory := mair.extractLsb' (8 * (r.rlar.extractLsb' 1 3).toNat) 8

end Region

/-- The regions over an address, with the maps they belong to. -/
def hits (hal : HalMpu) (mair : BitVec 64) (a : BitVec 32) : List (BitVec 32 × Access) :=
  ((hal.table.zip hal.map).filter fun e => e.1.Covers a).map fun e => (e.2, e.1.access mair)

/-! The fields of a stored region. -/

/-- A register value: the address down to 32 bytes, and the attributes below it. -/
theorem getLsbD_field (x attr : BitVec 32) {i : Nat} (hi : i < 5) :
    (x &&& ~~~0x1f ||| attr).getLsbD i = attr.getLsbD i := by
  have hmask : ∀ i < 5, (~~~0x1f : BitVec 32).getLsbD i = false := by decide
  rw [BitVec.getLsbD_or, BitVec.getLsbD_and, hmask i hi, Bool.and_false, Bool.false_or]

theorem extract_field (x attr : BitVec 32) {start len : Nat} (h : start + len ≤ 5) :
    (x &&& ~~~0x1f ||| attr).extractLsb' start len = attr.extractLsb' start len := by
  refine BitVec.eq_of_getLsbD_eq fun i hi => ?_
  rw [BitVec.getLsbD_extractLsb', BitVec.getLsbD_extractLsb', getLsbD_field x attr (by omega)]

theorem toNat_field (x : BitVec 32) {attr : BitVec 32} (hattr : attr.toNat < 2 ^ 5) :
    (x &&& ~~~0x1f ||| attr).toNat / 2 ^ 5 = x.toNat / 2 ^ 5 := by
  have hmask : (x &&& ~~~0x1f).toNat / 2 ^ 5 = x.toNat / 2 ^ 5 := by
    have hshift : (x &&& ~~~0x1f) >>> 5 = x >>> 5 := by
      refine BitVec.eq_of_getLsbD_eq fun i hi => ?_
      have hones : ∀ i < 27, (~~~0x1f : BitVec 32).getLsbD (5 + i) = true := by decide
      rw [BitVec.getLsbD_ushiftRight, BitVec.getLsbD_ushiftRight, BitVec.getLsbD_and]
      rcases Nat.lt_or_ge i 27 with hlt | hge
      · rw [hones i hlt, Bool.and_true]
      · rw [BitVec.getLsbD_of_ge x (5 + i) (by omega), Bool.false_and]
    have hnat := congrArg BitVec.toNat hshift
    rwa [BitVec.toNat_ushiftRight, BitVec.toNat_ushiftRight, Nat.shiftRight_eq_div_pow,
      Nat.shiftRight_eq_div_pow] at hnat
  rw [BitVec.toNat_or, ← Nat.shiftRight_eq_div_pow, Nat.shiftRight_or_distrib,
    Nat.shiftRight_eq_div_pow, Nat.shiftRight_eq_div_pow, hmask, Nat.div_eq_of_lt hattr, Nat.or_zero]

/-- The access a map's attributes stand for. Read-only maps may be written too: the
part has no such permission for privileged and other code at once. -/
def attrsAccess (attr : Attrs) : Access where
  sh := if attr.shareable then 2 else 0
  ap := if attr.read || attr.write then 1 else 0
  xn := !attr.exec
  pxn := !attr.exec
  memory := match attr.cacheable, attr.bufferable with
    | false, false => 0x00
    | true, false => 0xaa
    | false, true => 0x04
    | true, true => 0xee

/-- What the attribute bits of RBAR say. -/
structure RbarFacts (attr : Attrs) (rbar : BitVec 32) : Prop where
  lt : rbar.toNat < 2 ^ 5
  sh : rbar.extractLsb' 3 2 = (attrsAccess attr).sh
  ap : rbar.extractLsb' 1 2 = (attrsAccess attr).ap
  xn : rbar.getLsbD 0 = (attrsAccess attr).xn

theorem rbarFacts (attr : Attrs) : RbarFacts attr (regionAttrsRbar attr) := by
  obtain ⟨r, w, x, s, c, b⟩ := attr
  refine ⟨?_, ?_, ?_, ?_⟩ <;> revert r w x s c b <;> decide

/-- What the attribute bits of RLAR say, the memory type by its byte of `MAIR0`. -/
structure RlarFacts (attr : Attrs) (enabled : Bool) (rlar : BitVec 32) : Prop where
  lt : rlar.toNat < 2 ^ 5
  enabled : rlar.getLsbD 0 = enabled
  pxn : rlar.getLsbD 4 = (attrsAccess attr).pxn
  index : (rlar.extractLsb' 1 3).toNat < 4
  memory : MAIR0.extractLsb' (8 * (rlar.extractLsb' 1 3).toNat) 8 = (attrsAccess attr).memory

theorem rlarFacts (attr : Attrs) (enable : BitVec 32) :
    RlarFacts attr (enable ≠ 0) (regionAttrsRlar attr enable) := by
  obtain ⟨r, w, x, s, c, b⟩ := attr
  by_cases henable : enable = 0
  · subst henable
    refine ⟨?_, ?_, ?_, ?_, ?_⟩ <;> revert r w x s c b <;> decide
  · -- Whether it is zero is all that is read of `enable`.
    have hone : regionAttrsRlar ⟨r, w, x, s, c, b⟩ enable = regionAttrsRlar ⟨r, w, x, s, c, b⟩ 1 := by
      rw [regionAttrsRlar, regionAttrsRlar, if_pos henable, if_pos (by decide : (1 : BitVec 32) ≠ 0)]
    rw [hone, decide_eq_true henable]
    clear hone
    refine ⟨?_, ?_, ?_, ?_, ?_⟩ <;> revert r w x s c b <;> decide

/-- The region stored for a map. -/
def regionOf (c : MapCall) : Region :=
  let limit := if c.end_ - c.start = 0 then 0xffffffff else c.end_ - 1
  ⟨c.start &&& ~~~0x1f ||| regionAttrsRbar c.attr,
    limit &&& ~~~0x1f ||| regionAttrsRlar c.attr c.enable⟩

theorem access_regionOf (c : MapCall) (mair1 : BitVec 32) :
    (regionOf c).access (mair1 ++ MAIR0) = attrsAccess c.attr := by
  have hrbar := rbarFacts c.attr
  have hrlar := rlarFacts c.attr c.enable
  have hmair : ∀ i < 4, (mair1 ++ MAIR0).extractLsb' (8 * i) 8 = MAIR0.extractLsb' (8 * i) 8 :=
    fun i hi => BitVec.extractLsb'_append_eq_of_add_le (by omega)
  simp only [Region.access, regionOf]
  rw [extract_field _ _ (by decide), extract_field _ _ (by decide), extract_field _ _ (by decide),
    getLsbD_field _ _ (by decide), getLsbD_field _ _ (by decide), hrbar.sh, hrbar.ap, hrbar.xn,
    hrlar.pxn, hmair _ hrlar.index, hrlar.memory]

/-- The range is one that a region can span: all addresses, or whole blocks of 32 bytes. -/
def Supported (c : MapCall) : Prop :=
  ¬(c.end_ ≠ 0 ∧ c.end_ ≤ c.start) ∧
    (c.end_ - c.start = 0 ∨ 2 ^ 5 ∣ c.start.toNat ∧ 2 ^ 5 ∣ (c.end_ - c.start).toNat)

instance (c : MapCall) : Decidable (Supported c) := inferInstanceAs (Decidable (_ ∧ _))

def Contains (c : MapCall) (a : BitVec 32) : Prop :=
  c.start.toNat ≤ a.toNat ∧ a.toNat < rangeEnd c.end_

instance (c : MapCall) (a : BitVec 32) : Decidable (Contains c a) :=
  inferInstanceAs (Decidable (_ ∧ _))

theorem toNat_last (end_ : BitVec 32) : (end_ - 1).toNat = rangeEnd end_ - 1 := by
  rw [rangeEnd]
  split
  · next h =>
    rw [h]
    rfl
  · next h =>
    have hpos : end_.toNat ≠ 0 := fun hzero => h (BitVec.eq_of_toNat_eq hzero)
    bv_omega

/-- The region stored for a map of such a range covers exactly the range. -/
theorem covers_regionOf {c : MapCall} (h : Supported c) (a : BitVec 32) :
    (regionOf c).Covers a ↔ c.enable ≠ 0 ∧ Contains c a := by
  have hrlar := rlarFacts c.attr c.enable
  have hlt := lt_rangeEnd h.1
  have ha := a.isLt
  simp only [Region.Covers, regionOf]
  rw [getLsbD_field _ _ (by decide), hrlar.enabled, decide_eq_true_eq,
    toNat_field _ (rbarFacts c.attr).lt, toNat_field _ hrlar.lt]
  refine and_congr_right fun _ => ?_
  by_cases hsize : c.end_ - c.start = 0
  · obtain ⟨hstart, hend⟩ := eq_zero_of_size_eq_zero h.1 hsize
    have hall : rangeEnd c.end_ = 2 ^ 32 := by rw [rangeEnd, if_pos hend]
    have hzero : c.start.toNat = 0 := by rw [hstart]; rfl
    have hones : (0xffffffff : BitVec 32).toNat / 2 ^ 5 = 2 ^ 27 - 1 := by decide
    rw [if_pos hsize, Contains, hall, hzero, hones]
    omega
  · have hspan := toNat_size h.1 hsize
    obtain ⟨⟨k, hk⟩, m, hm⟩ := h.2.resolve_left hsize
    rw [if_neg hsize, toNat_last, Contains]
    omega

/-! Runs. -/

theorem regionInvalidate_self (m : Common) (n : Nat) : regionInvalidate m n n = m := by
  have hno : ∀ i, ¬visits m n n i := fun i h => by
    have hle := h.1
    have hlt := h.2.1
    omega
  simp only [regionInvalidate, if_neg (hno _)]

/-- Taking a map into the next slot. -/
def push (m : Common) (c : MapCall) : Common :=
  { m with
    region := Function.update m.region m.regCnt (regionOf c)
    mapId := Function.update m.mapId m.regCnt c.mapId
    regCnt := m.regCnt + 1
    mapCnt := m.mapCnt + 1 }

theorem unsupported_iff (start : BitVec 32) {size : BitVec 32} (hsize : size ≠ 0) :
    (size < 32 ∨ size &&& 0x1f ≠ 0 ∨ start &&& 0x1f ≠ 0) ↔
      ¬(2 ^ 5 ∣ start.toNat ∧ 2 ^ 5 ∣ size.toNat) := by
  have hmask : ∀ x : BitVec 32, x &&& 0x1f = 0 ↔ 2 ^ 5 ∣ x.toNat := by
    intro x
    have hnat : (x &&& 0x1f).toNat = x.toNat % 2 ^ 5 := by
      rw [BitVec.toNat_and]
      exact Nat.and_two_pow_sub_one_eq_mod x.toNat 5
    rw [Nat.dvd_iff_mod_eq_zero, ← hnat]
    exact ⟨fun h => by rw [h]; rfl, fun h => BitVec.eq_of_toNat_eq h⟩
  have hlt : 2 ^ 5 ∣ size.toNat → ¬size < 32 := by
    rintro ⟨k, hk⟩ hlt
    have hzero : size.toNat ≠ 0 := fun hzero => hsize (BitVec.eq_of_toNat_eq hzero)
    have hlt : size.toNat < 32 := hlt
    omega
  rw [Ne, Ne, hmask, hmask]
  constructor
  · rintro (hsmall | hsize | hstart) ⟨hstart', hsize'⟩
    · exact hlt hsize' hsmall
    · exact hsize hsize'
    · exact hstart hstart'
  · intro hno
    by_cases hstart : 2 ^ 5 ∣ start.toNat
    · exact Or.inr (Or.inl fun hsize => hno ⟨hstart, hsize⟩)
    · exact Or.inr (Or.inr hstart)

theorem regionSet_eq (m : Common) (c : MapCall) :
    regionSet m m.regCnt c.start c.end_ (regionAttrsRbar c.attr) (regionAttrsRlar c.attr c.enable)
        c.mapId =
      if m.regMax ≤ m.regCnt then (m, m.regCnt, -EPERM)
      else if c.end_ ≠ 0 ∧ c.end_ ≤ c.start then (m, m.regCnt, -EINVAL)
      else if Supported c then
        ({ m with
            region := Function.update m.region m.regCnt (regionOf c)
            mapId := Function.update m.mapId m.regCnt c.mapId }, m.regCnt + 1, EOK)
      else (m, m.regCnt, -EPERM) := by
  simp only [regionSet, regionOf]
  by_cases hfull : m.regMax ≤ m.regCnt
  · rw [if_pos hfull, if_pos hfull]
  · rw [if_neg hfull, if_neg hfull]
    by_cases hordered : c.end_ ≠ 0 ∧ c.end_ ≤ c.start
    · rw [if_pos hordered, if_pos hordered]
    · rw [if_neg hordered, if_neg hordered]
      by_cases hsize : c.end_ - c.start = 0
      · have hc : Supported c := ⟨hordered, Or.inl hsize⟩
        rw [if_neg (fun h => h.1 hsize), if_pos hc]
      · have hiff := unsupported_iff c.start hsize
        by_cases hspan : 2 ^ 5 ∣ c.start.toNat ∧ 2 ^ 5 ∣ (c.end_ - c.start).toNat
        · have hc : Supported c := ⟨hordered, Or.inr hspan⟩
          rw [if_neg (fun h => hiff.mp h.2 hspan), if_pos hc]
        · rw [if_pos ⟨hsize, hiff.mpr hspan⟩,
            if_neg (fun h : Supported c => h.2.elim hsize hspan)]

/-- One call: a supported range is taken while there is a region left. -/
theorem regionAlloc_eq (m : Common) (c : MapCall) :
    regionAlloc m c =
      if m.regMax = 0 then (m, EOK)
      else if m.regMax ≤ m.regCnt then (m, -EPERM)
      else if c.end_ ≠ 0 ∧ c.end_ ≤ c.start then (m, -EINVAL)
      else if Supported c then (push m c, EOK)
      else (m, -EPERM) := by
  have hfailed : ∀ res, res ≠ EOK →
      (if res ≠ EOK then (regionInvalidate m m.regCnt m.regCnt, res)
        else ({ m with regCnt := m.regCnt, mapCnt := m.mapCnt + 1 }, EOK)) = (m, res) := by
    intro res hres
    rw [if_pos hres, regionInvalidate_self]
  simp only [regionAlloc, regionSet_eq]
  by_cases hnone : m.regMax = 0
  · rw [if_pos hnone, if_pos hnone]
  · rw [if_neg hnone, if_neg hnone]
    by_cases hfull : m.regMax ≤ m.regCnt
    · rw [if_pos hfull, if_pos hfull]
      exact hfailed (-EPERM) (by decide)
    · rw [if_neg hfull, if_neg hfull]
      by_cases hordered : c.end_ ≠ 0 ∧ c.end_ ≤ c.start
      · rw [if_pos hordered, if_pos hordered]
        exact hfailed (-EINVAL) (by decide)
      · rw [if_neg hordered, if_neg hordered]
        by_cases hc : Supported c
        · rw [if_pos hc, if_pos hc]
          rfl
        · rw [if_neg hc, if_neg hc]
          exact hfailed (-EPERM) (by decide)

/-- The maps that are accepted, from the number of regions there are. -/
def accepted (regMax : Nat) (calls : List MapCall) : List MapCall :=
  (calls.filter Supported).take regMax

/-- The first slots hold the accepted maps. -/
structure Holds (m : Common) (type : BitVec 32) (calls : List MapCall) : Prop where
  type_eq : m.type = type
  regMax_eq : m.regMax = typeRegions type
  regCnt_eq : m.regCnt = (accepted (typeRegions type) calls).length
  slots : ∀ i c, (accepted (typeRegions type) calls)[i]? = some c →
    m.region i = regionOf c ∧ m.mapId i = c.mapId

theorem accepted_concat (regMax : Nat) (calls : List MapCall) (c : MapCall) :
    accepted regMax (calls ++ [c]) =
      if (accepted regMax calls).length < regMax ∧ Supported c then accepted regMax calls ++ [c]
      else accepted regMax calls := by
  have hlen : (accepted regMax calls).length = min regMax (calls.filter Supported).length :=
    List.length_take
  by_cases hc : Supported c
  · have hfilter : (calls ++ [c]).filter Supported = calls.filter Supported ++ [c] := by
      rw [List.filter_append, List.filter_cons_of_pos (by simpa using hc), List.filter_nil]
    rw [accepted, hfilter, List.take_append]
    by_cases hroom : (accepted regMax calls).length < regMax
    · rw [if_pos ⟨hroom, hc⟩, List.take_of_length_le (l := [c]) (by rw [List.length_singleton]; omega),
        accepted]
    · have hnone : regMax - (calls.filter Supported).length = 0 := by omega
      rw [if_neg (fun h => hroom h.1), hnone, List.take_zero, List.append_nil, accepted]
  · rw [if_neg (fun h => hc h.2), accepted, List.filter_append,
      List.filter_cons_of_neg (by simpa using hc), List.filter_nil, List.append_nil, accepted]

/-- A call that is not taken, because there is no region left or none can span the
range, leaves the state. -/
theorem regionAlloc_fst (m : Common) (c : MapCall) :
    (regionAlloc m c).1 = if m.regCnt < m.regMax ∧ Supported c then push m c else m := by
  rw [regionAlloc_eq]
  by_cases hroom : m.regCnt < m.regMax
  · rw [if_neg (by omega), if_neg (by omega)]
    by_cases hordered : c.end_ ≠ 0 ∧ c.end_ ≤ c.start
    · rw [if_pos hordered, if_neg (fun h => h.2.1 hordered)]
    · rw [if_neg hordered, apply_ite Prod.fst]
      exact if_congr ⟨fun h => ⟨hroom, h⟩, fun h => h.2⟩ rfl rfl
  · have hno : ¬(m.regCnt < m.regMax ∧ Supported c) := fun h => hroom h.1
    rw [if_neg hno, if_pos (by omega : m.regMax ≤ m.regCnt), apply_ite Prod.fst, ite_self]

theorem Holds.regionAlloc {m : Common} {type : BitVec 32} {calls : List MapCall}
    (h : Holds m type calls) (c : MapCall) :
    Holds (regionAlloc m c).1 type (calls ++ [c]) := by
  rw [regionAlloc_fst, h.regMax_eq, h.regCnt_eq]
  split
  · next htaken =>
    have hconcat := accepted_concat (typeRegions type) calls c
    rw [if_pos htaken] at hconcat
    refine ⟨h.type_eq, h.regMax_eq, ?_, fun i c' hi => ?_⟩
    · rw [hconcat, List.length_append, List.length_singleton, ← h.regCnt_eq]
      rfl
    · rw [hconcat] at hi
      simp only [push, h.regCnt_eq]
      rcases Nat.lt_trichotomy i (accepted (typeRegions type) calls).length with hlt | heq | hgt
      · rw [List.getElem?_append_left hlt] at hi
        rw [Function.update_of_ne (by omega), Function.update_of_ne (by omega)]
        exact h.slots i c' hi
      · rw [heq, List.getElem?_concat_length] at hi
        rw [heq, Function.update_self, Function.update_self, Option.some.inj hi]
        exact ⟨rfl, rfl⟩
      · rw [List.getElem?_eq_none (by rw [List.length_append, List.length_singleton]; omega)] at hi
        exact absurd hi (by simp)
  · next hleft =>
    have hconcat := accepted_concat (typeRegions type) calls c
    rw [if_neg hleft] at hconcat
    exact ⟨h.type_eq, h.regMax_eq, by rw [hconcat, h.regCnt_eq], by rw [hconcat]; exact h.slots⟩

theorem holds_foldl (type : BitVec 32) (calls : List MapCall) :
    Holds (calls.foldl (fun m c => (Armv8m.regionAlloc m c).1) (mpuInit type)) type calls := by
  induction calls using List.reverseRecOn with
  | nil => exact ⟨rfl, rfl, by simp [accepted, mpuInit, regionInvalidate],
      fun i c h => by simp [accepted] at h⟩
  | append_singleton calls c ih =>
      rw [List.foldl_concat]
      exact ih.regionAlloc c

theorem map_range_length {α β : Type} {l : List α} {f : Nat → β} {g : α → β}
    (h : ∀ i c, l[i]? = some c → f i = g c) : (List.range l.length).map f = l.map g := by
  refine List.ext_getElem (by simp) fun i hi hi' => ?_
  rw [List.getElem_map, List.getElem_map, List.getElem_range]
  exact h i _ (List.getElem?_eq_getElem _)

theorem getHalData_count (m : Common) (n : Nat) :
    (getHalData m n).table =
        (List.range (min m.regCnt n)).map (regionInvalidate m m.regCnt m.regMax).region ++
          List.replicate (n - min m.regCnt n) invalidRegion ∧
      (getHalData m n).map =
        (List.range (min m.regCnt n)).map (regionInvalidate m m.regCnt m.regMax).mapId ++
          List.replicate (n - min m.regCnt n) (-1) := by
  have hcnt : (regionInvalidate m m.regCnt m.regMax).regCnt = m.regCnt := rfl
  simp only [getHalData, hcnt]
  by_cases htrunc : m.regCnt > n
  · rw [if_pos htrunc, Nat.min_eq_right (by omega)]
    exact ⟨rfl, rfl⟩
  · rw [if_neg htrunc, Nat.min_eq_left (by omega)]
    exact ⟨rfl, rfl⟩

/-- The table is the accepted maps, as far as there are entries, and disabled regions. -/
theorem getHalData_eq {m : Common} {type : BitVec 32} {calls : List MapCall}
    (h : Holds m type calls) (n : Nat) :
    ∃ left, (getHalData m n).table =
        ((accepted (typeRegions type) calls).take n).map regionOf ++ List.replicate left invalidRegion ∧
      (getHalData m n).map =
        ((accepted (typeRegions type) calls).take n).map (·.mapId) ++ List.replicate left (-1) := by
  have hlen : ((accepted (typeRegions type) calls).take n).length = min m.regCnt n := by
    rw [List.length_take, h.regCnt_eq, Nat.min_comm]
  have hslot : ∀ i c, ((accepted (typeRegions type) calls).take n)[i]? = some c →
      (regionInvalidate m m.regCnt m.regMax).region i = regionOf c ∧
        (regionInvalidate m m.regCnt m.regMax).mapId i = c.mapId := by
    intro i c hi
    have hlt : i < min m.regCnt n := by
      rw [← hlen]
      exact (List.getElem?_eq_some_iff.mp hi).1
    have hused : ¬visits m m.regCnt m.regMax i := fun hv => by
      have hle := hv.1
      omega
    rw [List.getElem?_take, if_pos (by omega)] at hi
    simp only [regionInvalidate, if_neg hused]
    exact h.slots i c hi
  obtain ⟨htable, hmap⟩ := getHalData_count m n
  rw [← hlen] at htable hmap
  rw [map_range_length fun i c hi => (hslot i c hi).1] at htable
  rw [map_range_length fun i c hi => (hslot i c hi).2] at hmap
  exact ⟨_, htable, hmap⟩

theorem supported_of_accepted {regMax : Nat} {calls : List MapCall} {c : MapCall}
    (h : c ∈ accepted regMax calls) : Supported c := by
  simpa using (List.mem_filter.mp (List.mem_of_mem_take h)).2

/-- After any calls of `mpu_regionAlloc` the regions of the table that is handed over
are over an address if and only if the accepted maps are that contain it, in their
order, and grant what the attributes of the maps stand for. -/
theorem hits_handedOver (type mair1 : BitVec 32) (calls : List MapCall) (syspageTableSize : Nat)
    (a : BitVec 32) :
    hits (getHalData (calls.foldl (fun m c => (regionAlloc m c).1) (mpuInit type)) syspageTableSize)
        (mair1 ++ MAIR0) a =
      (((accepted (typeRegions type) calls).take syspageTableSize).filter fun c =>
        c.enable ≠ 0 ∧ Contains c a).map fun c => (c.mapId, attrsAccess c.attr) := by
  obtain ⟨left, htable, hmap⟩ := getHalData_eq (holds_foldl type calls) syspageTableSize
  have hoff : ∀ e ∈ (List.replicate left invalidRegion).zip (List.replicate left (-1 : BitVec 32)),
      ¬Region.Covers e.1 a := by
    intro e he hcovers
    rw [List.eq_of_mem_replicate (List.of_mem_zip he).1] at hcovers
    exact absurd hcovers.1 (by decide)
  have hnone : ((List.replicate left invalidRegion).zip (List.replicate left (-1 : BitVec 32))).filter
      (fun e => e.1.Covers a) = [] :=
    List.filter_eq_nil_iff.mpr fun e he => by simpa using hoff e he
  have hcovers : ∀ c ∈ (accepted (typeRegions type) calls).take syspageTableSize,
      (regionOf c).Covers a ↔ c.enable ≠ 0 ∧ Contains c a := fun c hc =>
    covers_regionOf (supported_of_accepted (List.mem_of_mem_take hc)) a
  rw [hits, htable, hmap, List.zip_append (by simp), List.filter_append, hnone, List.append_nil,
    List.zip_map', List.filter_map, List.map_map]
  have hfilter := List.filter_congr (p := fun c => decide ((regionOf c).Covers a))
    (q := fun c => decide (c.enable ≠ 0 ∧ Contains c a)) fun c hc => decide_eq_decide.mpr (hcovers c hc)
  rw [← hfilter]
  exact List.map_congr_left fun c _ => congrArg (Prod.mk c.mapId) (access_regionOf c mair1)

end Plo.Hal.Armv8m
