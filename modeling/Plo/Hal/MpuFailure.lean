import Plo.Hal.MpuRuns

/-!
Calls of `mpu_regionAlloc` that fail. The regions stored before the failure are
invalidated from the first index to the current one, which gives back what was
there only because every slot not in use is kept invalidated.
-/
namespace Plo.Hal
open Plo.Syspage (Attrs)

section Generate
variable {m : MpuCommon} {idx : Nat} {start end_ attr : BitVec 32}

/-- Every branch of the body stores regions one after another, whatever the range. -/
theorem generateWith_stores {hole : Generate}
    (hhole : ∀ m idx start end_ attr, Outcome m idx (hole m idx start end_ attr) fun _ => True) :
    Outcome m idx (regionGenerateWith hole m idx start end_ attr) fun _ => True := by
  have hset (m : MpuCommon) (idx : Nat) (start end_ : BitVec 32) (k : Nat) :
      Outcome m idx (regionCalculateAndSet m idx start end_ k attr) fun _ => True :=
    .set fun _ => trivial
  have hcut (start end_ holeStart holeEnd : BitVec 32) (k : Nat) :
      Outcome m idx (regionCut hole m idx start end_ holeStart holeEnd k attr) fun _ => True := by
    simp only [regionCut]
    split
    · exact .fail (by decide)
    · exact Outcome.bind (f := fun m idx => hole m idx holeStart holeEnd (holeAttr attr))
        (hset m idx start end_ k) fun m' idx' _ _ => hhole m' idx' holeStart holeEnd (holeAttr attr)
  unfold regionGenerateWith
  dsimp only
  refine .ite (fun _ => .fail (by decide)) fun _ => ?_
  refine .ite (fun _ => .set fun _ => trivial) fun _ => ?_
  refine .ite (fun _ => ?_) fun _ => ?_
  · exact .ite (fun _ => .fail (by decide)) fun _ => .set fun _ => trivial
  refine .ite (fun _ => .fail (by decide)) fun _ => ?_
  refine .ite (fun _ => hset m idx start end_ _) fun _ => ?_
  refine .ite (fun _ => ?_) fun _ => ?_
  · exact Outcome.bind (f := fun m idx => regionCalculateAndSet m idx _ end_ _ attr)
      (hset m idx start _ _) fun m' idx' _ _ => hset m' idx' _ end_ _
  refine .ite (fun _ => .fail (by decide)) fun _ => ?_
  refine .ite (fun _ => hcut _ _ _ _ _) fun _ => ?_
  exact .ite (fun _ => hcut _ _ _ _ _) fun _ => .fail (by decide)

theorem generate_stores (m : MpuCommon) (idx : Nat) (start end_ attr : BitVec 32) :
    Outcome m idx (regionGenerate m idx start end_ attr) fun _ => True :=
  generateWith_stores fun _ _ _ _ _ => generateWith_stores fun _ _ _ _ _ => .fail (by decide)

end Generate

/-- The slots not in use are as `mpu_regionInvalidate` leaves them. -/
structure MpuCommon.Unused (m : MpuCommon) : Prop where
  count : m.regCnt ≤ m.regMax
  region : ∀ i, m.regCnt ≤ i → i < m.regMax → m.region i = invalidRegion i
  mapId : ∀ i, m.regCnt ≤ i → i < m.regMax → m.mapId i = -1

section Alloc
variable {m : MpuCommon} {addr end_ : BitVec 32} {attr : Attrs} {mapId enable : BitVec 32}

theorem unused_mpuInit (type : BitVec 32) (h : ((type >>> 8).setWidth 8).toNat ≤ 16) :
    (mpuInit type h).Unused := by
  have hvisits {i : Nat} (hi : i < (mpuInit type h).regMax) :
      visits { mpuInit type h with region := fun _ => ⟨0, 0⟩, mapId := fun _ => 0 } 0 16 i :=
    ⟨Nat.zero_le i, Nat.lt_of_lt_of_le hi h, hi⟩
  exact ⟨Nat.zero_le _, fun i _ hi => if_pos (hvisits hi), fun i _ hi => if_pos (hvisits hi)⟩

/-- Storing regions in unused slots and invalidating them again changes nothing. -/
theorem MpuCommon.Unused.invalidate (h : m.Unused) {rs : List MpuRegion}
    (hroom : m.regCnt + rs.length ≤ m.regMax) :
    regionInvalidate { m with region := place m.region m.regCnt rs } m.regCnt
      (m.regCnt + rs.length) = m := by
  have hregion : (fun i => if visits { m with region := place m.region m.regCnt rs } m.regCnt
      (m.regCnt + rs.length) i then invalidRegion i else place m.region m.regCnt rs i) =
      m.region := by
    funext i
    split
    · next hi => exact (h.region i hi.1 hi.2.2).symm
    · next hi =>
      simp only [visits] at hi
      cases Nat.lt_or_ge i m.regCnt with
      | inl hlt => exact place_below _ _ _ hlt
      | inr hge => exact place_above _ _ _ (by omega)
  have hmapId : (fun i => if visits { m with region := place m.region m.regCnt rs } m.regCnt
      (m.regCnt + rs.length) i then -1 else m.mapId i) = m.mapId := by
    funext i
    split
    · next hi => exact (h.mapId i hi.1 hi.2.2).symm
    · rfl
  simp only [regionInvalidate, hregion, hmapId]

theorem MpuCommon.Unused.failed (h : m.Unused)
    (hres : (regionAlloc m addr end_ attr mapId enable).2 ≠ EOK) :
    (regionAlloc m addr end_ attr mapId enable).1 = m := by
  obtain ⟨rs, hm, hidx, hmax, -⟩ :=
    generate_stores m m.regCnt addr end_ (regionAttrs attr enable)
  have hroom := hmax h.count
  simp only [regionAlloc] at hres ⊢
  split at hres
  · next herr =>
    rw [if_pos herr, hm, hidx]
    exact h.invalidate (hidx ▸ hroom)
  · exact absurd rfl hres

theorem MpuCommon.Unused.alloc (h : m.Unused) (addr end_ : BitVec 32) (attr : Attrs)
    (mapId enable : BitVec 32) : (regionAlloc m addr end_ attr mapId enable).1.Unused := by
  by_cases hres : (regionAlloc m addr end_ attr mapId enable).2 = EOK
  · obtain ⟨rs, hm, hidx, hmax, -⟩ :=
      generate_stores m m.regCnt addr end_ (regionAttrs attr enable)
    have hroom := hmax h.count
    simp only [regionAlloc] at hres ⊢
    split at hres
    · next herr => exact absurd hres herr
    · next hok =>
      rw [if_neg hok, hm, hidx]
      rw [hidx] at hroom
      refine ⟨hroom, ?_, ?_⟩
      · intro i hi himax
        exact (place_above _ _ _ hi).trans (h.region i (Nat.le_of_add_right_le hi) himax)
      · intro i hi himax
        refine (if_neg ?_).trans (h.mapId i (Nat.le_of_add_right_le hi) himax)
        rintro ⟨⟨-, hlt, -⟩, -⟩
        exact absurd hi (Nat.not_le.mpr hlt)
  · rw [h.failed hres]
    exact h

end Alloc

/-- After any calls, one that fails leaves everything as it was, and the slots of the
table that are not in use are invalidated. -/
theorem failed_alloc_changes_nothing (type : BitVec 32)
    (htype : ((type >>> 8).setWidth 8).toNat ≤ 16) (r : MpuRun)
    (hr : Reachable allocMap (fun _ _ => True) ⟨mpuInit type htype, []⟩ r)
    (addr end_ : BitVec 32) (attr : Attrs) (mapId enable : BitVec 32)
    (hres : (regionAlloc r.mpu addr end_ attr mapId enable).2 ≠ EOK) :
    (regionAlloc r.mpu addr end_ attr mapId enable).1 = r.mpu ∧
      ∀ i, r.mpu.regCnt ≤ i → i < r.mpu.regMax →
        (regionAlloc r.mpu addr end_ attr mapId enable).1.region i = invalidRegion i ∧
          (regionAlloc r.mpu addr end_ attr mapId enable).1.mapId i = -1 := by
  have hunused : r.mpu.Unused :=
    hr.invariant (I := fun r => r.mpu.Unused) (unused_mpuInit type htype)
      fun r q h _ => h.alloc q.start q.end_ q.attr q.mapId q.enable
  have hsame := hunused.failed hres
  refine ⟨hsame, ?_⟩
  intro i hi himax
  rw [hsame]
  exact ⟨hunused.region i hi himax, hunused.mapId i hi himax⟩

/-- The larger region is stored, then its hole has too many significant bits. -/
theorem failed_alloc_changes_nothing_hole :
    (regionAlloc mpu8 0x20000000 0x20012020 ⟨true, true, false, false, true, true⟩ 0 1).1 = mpu8 :=
  (failed_alloc_changes_nothing 0x800 (by decide) ⟨mpu8, []⟩ .init 0x20000000 0x20012020
    ⟨true, true, false, false, true, true⟩ 0 1 (by decide +kernel)).1

end Plo.Hal
