import Mathlib.Logic.Function.Basic
import Plo.Hal.MpuRegion
import Plo.Lib.Types
import Plo.Syspage.State

/-!
Allocation of MPU regions on ARMv7-M and ARMv7-R, whose sources differ only in
how the type register is read. A range is given to one or two regions with some
of their eighths switched off, or to a larger region whose surplus is covered by
a hole, a region of higher number without permissions.
-/
namespace Plo.Hal
open Plo.Syspage (Attrs)

/-- `mpu_common_t`. The table has sixteen slots. -/
structure MpuCommon where
  type : BitVec 32
  regCnt : Nat
  regMax : Nat
  mapCnt : BitVec 32
  region : Nat → MpuRegion
  mapId : Nat → BitVec 32
  /-- No part has more regions than the table has slots. -/
  regMax_le : regMax ≤ 16

/-- `HOLE_ATTR`: only the enable bit is left. -/
def holeAttr (rasrAttr : BitVec 32) : BitVec 32 := rasrAttr &&& 1

/-- A register shift: a count below zero or above 31 leaves nothing. -/
def lsl (x : BitVec 32) (n : Int) : BitVec 32 := if n < 0 then 0 else x <<< n.toNat

/-- The state, the index after the regions set so far, and the result. -/
abbrev MpuResult := MpuCommon × Nat × Int

/-- The register values `mpu_regionSet` stores: RBAR marked as valid for this slot. -/
def regionEntry (idx : Nat) (baseAddr : BitVec 32) (srdMask : BitVec 8) (sizeBit : Nat)
    (rasrAttr : BitVec 32) : MpuRegion where
  rbar := baseAddr ||| (1#32 <<< 4) ||| (BitVec.ofNat 32 idx &&& 0xf)
  rasr := rasrAttr ||| (srdMask.setWidth 32 <<< 8) |||
    (((BitVec.ofNat 32 sizeBit - 1) &&& 0x1f) <<< 1)

def regionSet (m : MpuCommon) (idx : Nat) (baseAddr : BitVec 32) (srdMask : BitVec 8)
    (sizeBit : Nat) (rasrAttr : BitVec 32) : MpuResult :=
  if sizeBit < 5 ∨ idx ≥ m.regMax then (m, idx, -EPERM)
  else
    let region := regionEntry idx baseAddr srdMask sizeBit rasrAttr
    ({ m with region := Function.update m.region idx region }, idx + 1, EOK)

def bit (b : Bool) (n : Nat) : BitVec 32 := (BitVec.ofBool b).setWidth 32 <<< n

def regionAttrs (attr : Attrs) (enable : BitVec 32) : BitVec 32 :=
  let tex : BitVec 32 := 0
  let ap : BitVec 32 := if attr.write then 3 else if attr.read then 2 else 1
  bit (!attr.exec) 28 ||| ((ap &&& 7) <<< 24) ||| ((tex &&& 7) <<< 19) |||
    bit attr.shareable 18 ||| bit attr.cacheable 17 ||| bit attr.bufferable 16 |||
    bit (enable ≠ 0) 0

/-- The inner loop of `mpu_checkOverlap`, over the eighths left to look at. -/
def subregionsOverlap (start end_ size : BitVec 32) : Nat → BitVec 32 → BitVec 8 → Bool
  | 0, _, _ => false
  | n + 1, srStart, subregions =>
    let srEnd := srStart + size - 1
    if subregions &&& 1 = 0 ∧ start ≤ srEnd ∧ srStart ≤ end_ then true
    else subregionsOverlap start end_ size n (srEnd + 1) (subregions >>> 1)

/-- One turn of the outer loop of `mpu_checkOverlap`. -/
def regionOverlap (r : MpuRegion) (start end_ : BitVec 32) : Bool :=
  if r.rbar &&& 0x10 = 0 ∨ r.rasr &&& 1 = 0 then false
  else
    let sizeBit := ((r.rasr >>> 1) &&& 0x1f).toNat + 1
    let srStart := r.rbar &&& ~~~((1#32 <<< sizeBit) - 1)
    let subregions := ((r.rasr >>> 8) &&& 0xff).setWidth 8
    subregionsOverlap start end_ (lsl 1 ((sizeBit : Int) - 3)) 8 srStart subregions

def checkOverlap (m : MpuCommon) (idx : Nat) (start end_ : BitVec 32) : Bool :=
  (List.range idx).any (fun i => regionOverlap (m.region i) start (end_ - 1))

/-- The sub-region mask: a set bit switches an eighth off. -/
def srdMask (srStart srEnd : Nat) : BitVec 8 :=
  (~~~(((1#32 <<< srEnd) - 1) &&& (0xff#32 <<< srStart))).setWidth 8

def regionCalculateAndSet (m : MpuCommon) (idx : Nat) (start end_ : BitVec 32) (sizeBit : Nat)
    (rasrAttr : BitVec 32) : MpuResult :=
  let baseAddr := start &&& ~~~((1#32 <<< sizeBit) - 1)
  let srStart := ((start >>> (sizeBit - 3)) &&& 7).toNat
  let srEnd := ((end_ >>> (sizeBit - 3)) &&& 7).toNat
  let srEnd := if srEnd = 0 then 8 else srEnd
  regionSet m idx baseAddr (srdMask srStart srEnd) sizeBit rasrAttr

/-- The type of `mpu_regionGenerate`, for its recursive call. -/
abbrev Generate := MpuCommon → Nat → BitVec 32 → BitVec 32 → BitVec 32 → MpuResult

/-- A larger region and a hole over its surplus, unless the hole would override
an earlier region. -/
def regionCut (hole : Generate) (m : MpuCommon) (idx : Nat)
    (alignedStart alignedEnd holeStart holeEnd : BitVec 32) (commonMsb : Nat)
    (rasrAttr : BitVec 32) : MpuResult :=
  if checkOverlap m idx holeStart holeEnd then (m, idx, -EPERM)
  else
    match regionCalculateAndSet m idx alignedStart alignedEnd commonMsb rasrAttr with
    | (m, idx, res) =>
      if res = EOK then hole m idx holeStart holeEnd (holeAttr rasrAttr) else (m, idx, res)

/-- The body of `mpu_regionGenerate`, with `hole` for the call to itself. -/
def regionGenerateWith (hole : Generate) (m : MpuCommon) (idx : Nat)
    (start end_ rasrAttr : BitVec 32) : MpuResult :=
  let size := end_ - start
  if end_ ≠ 0 ∧ end_ ≤ start then (m, idx, -EINVAL)
  else if size = 0 then regionSet m idx 0 0 32 rasrAttr
  else if size = 1#32 <<< size.ctz.toNat ∧ start &&& (size - 1) = 0 then
    if size < 32 then (m, idx, -EPERM)
    else regionSet m idx start 0 size.ctz.toNat rasrAttr
  else
    let commonTrailingZeroes := (start ||| end_).ctz.toNat
    if commonTrailingZeroes < 5 then (m, idx, -EPERM)
    else
      let commonMsb := 32 - (start ^^^ (end_ - 1)).clz.toNat
      let sigBits := commonMsb - commonTrailingZeroes
      if sigBits ≤ 3 then
        regionCalculateAndSet m idx start end_ (commonTrailingZeroes + 3) rasrAttr
      else if sigBits = 4 then
        let sizeBit := commonTrailingZeroes + 3
        let diffMask := (1#32 <<< sizeBit) - 1
        let reg1End := (start &&& ~~~diffMask) + diffMask + 1
        match regionCalculateAndSet m idx start reg1End sizeBit rasrAttr with
        | (m, idx, res) =>
          if res = EOK then regionCalculateAndSet m idx reg1End end_ sizeBit rasrAttr
          else (m, idx, res)
      else if rasrAttr = holeAttr rasrAttr then (m, idx, -EPERM)
      else
        let diffMask := (1#32 <<< (commonMsb - 3)) - 1
        if start &&& ~~~diffMask = start then
          let alignedEnd := (end_ &&& ~~~diffMask) + diffMask + 1
          regionCut hole m idx start alignedEnd end_ alignedEnd commonMsb rasrAttr
        else if end_ &&& ~~~diffMask = end_ then
          let alignedStart := start &&& ~~~diffMask
          regionCut hole m idx alignedStart end_ alignedStart start commonMsb rasrAttr
        else (m, idx, -EPERM)

/-- Up to two regions for a range. The attributes of a hole allow no further
hole, so the body is entered twice at most. -/
def regionGenerate : Generate :=
  regionGenerateWith (regionGenerateWith (fun m idx _ _ _ => (m, idx, -EPERM)))

theorem holeAttr_idem (rasrAttr : BitVec 32) : holeAttr rasrAttr = holeAttr (holeAttr rasrAttr) := by
  simp only [holeAttr, BitVec.and_assoc, BitVec.and_self]

theorem regionGenerateWith_congr {f g : Generate} {rasrAttr : BitVec 32}
    (h : ∀ m idx start end_,
      f m idx start end_ (holeAttr rasrAttr) = g m idx start end_ (holeAttr rasrAttr))
    (m : MpuCommon) (idx : Nat) (start end_ : BitVec 32) :
    regionGenerateWith f m idx start end_ rasrAttr =
      regionGenerateWith g m idx start end_ rasrAttr := by
  simp only [regionGenerateWith, regionCut, h]

/-- The recursion of the source. -/
theorem regionGenerate_eq (m : MpuCommon) (idx : Nat) (start end_ rasrAttr : BitVec 32) :
    regionGenerate m idx start end_ rasrAttr =
      regionGenerateWith regionGenerate m idx start end_ rasrAttr := by
  refine regionGenerateWith_congr ?_ m idx start end_
  intro m idx start end_
  simp only [regionGenerate, regionGenerateWith, if_pos (holeAttr_idem rasrAttr)]

def visits (m : MpuCommon) (first last i : Nat) : Prop := first ≤ i ∧ i < last ∧ i < m.regMax

instance (m : MpuCommon) (first last i : Nat) : Decidable (visits m first last i) :=
  inferInstanceAs (Decidable (_ ∧ _ ∧ _))

/-- An invalid region: not selected, never executable, disabled. -/
def invalidRegion (i : Nat) : MpuRegion :=
  ⟨BitVec.ofNat 32 i &&& 0xf, (1#32 <<< 28) ||| (0x1f#32 <<< 1)⟩

def regionInvalidate (m : MpuCommon) (first last : Nat) : MpuCommon :=
  { m with
    mapId := fun i => if visits m first last i then -1 else m.mapId i
    region := fun i => if visits m first last i then invalidRegion i else m.region i }

def regionAssignMap (m : MpuCommon) (first last : Nat) (mapId : BitVec 32) : MpuCommon :=
  { m with
    mapId := fun i =>
      if visits m first last i ∧ (m.region i).rbar &&& (1#32 <<< 4) ≠ 0 then mapId
      else m.mapId i }

/-- `mpu_common` starts as zeros; the number of regions is what the type register
says. -/
def mpuInit (type : BitVec 32) (h : ((type >>> 8).setWidth 8).toNat ≤ 16) : MpuCommon :=
  regionInvalidate
    { type := type, regCnt := 0, regMax := ((type >>> 8).setWidth 8).toNat, mapCnt := 0
      region := fun _ => ⟨0, 0⟩, mapId := fun _ => 0, regMax_le := h } 0 16

def regionAlloc (m : MpuCommon) (addr end_ : BitVec 32) (attr : Attrs) (mapId enable : BitVec 32) :
    MpuCommon × Int :=
  let rasrAttr := regionAttrs attr enable
  match regionGenerate m m.regCnt addr end_ rasrAttr with
  | (m', regCur, res) =>
    if res ≠ EOK then (regionInvalidate m' m.regCnt regCur, res)
    else
      let m' := regionAssignMap m' m.regCnt regCur mapId
      ({ m' with regCnt := regCur, mapCnt := m.mapCnt + 1 }, EOK)

def MpuCommon.slots (m : MpuCommon) (first last : Nat) : List MpuRegion :=
  (List.range' first (last - first)).map m.region

end Plo.Hal
