import Plo.Hal.MpuCover
import Plo.Syspage.Registry

/-!
When a failing `syspage_mapAdd` leaves the list of maps alone. The map is linked
after the overlap test, two allocations and the attribute string, but before the
HAL's ranges are entered and before the HAL accepts it, so only the first four
can fail without a trace.
-/
namespace Plo.Syspage
variable {w : Nat} {σ : Type}

/-- The ranges `hal_memoryGetNextEntry` reports from an address up to `end_`. -/
inductive HalEntries (p : Platform w σ) (hal : σ) (end_ : BitVec w) :
    BitVec w → List (MapEnt w) → Prop
  | done {start : BitVec w} (h : p.memoryGetNextEntry hal start end_ = none) :
      HalEntries p hal end_ start []
  | more {start : BitVec w} {temp : MapEnt w} {es : List (MapEnt w)}
      (h : p.memoryGetNextEntry hal start end_ = some temp)
      (rest : HalEntries p hal end_ temp.end_ es) : HalEntries p hal end_ start (temp :: es)

def MapReq.record (p : Platform w σ) (q : MapReq w) : List (BitVec w) :=
  [p.sizeofMap, BitVec.ofNat w (q.name.bytes.length + 1)]

/-- What fails before the map is linked: the overlap test, the heap for the
record and the name, or the attributes. -/
def MapReq.Refused (p : Platform w σ) (s : Common w σ) (q : MapReq w) : Prop :=
  s.maps.any (mapClash q.name q.start q.end_) ∨ allocAll p s (q.record p) = none ∨
    ∃ res, strAttr2ui q.attr = .error res

/-- The heap holds the record, the name and an entry for each range of the HAL,
and the HAL takes the map. -/
def MapReq.Backed (p : Platform w σ) (s : Common w σ) (q : MapReq w) : Prop :=
  ∃ es iattr, HalEntries p s.hal q.end_ q.start es ∧ strAttr2ui q.attr = .ok iattr ∧
    allocAll p s (q.record p ++ es.map fun _ => p.sizeofMapent) ≠ none ∧
    0 ≤ (p.memoryAddMap s.hal q.start q.end_ iattr ((nextId s.maps).setWidth 32)).2

/-- Nothing a later call sees has changed: not the maps, not what a name leads
to, and no map called `name` is refused that was not refused before. -/
structure MapsKept (s s' : Common w σ) (name : CString) : Prop where
  maps : s'.maps = s.maps
  get : ∀ n, mapGet s' n = mapGet s n
  clash : ∀ start end_, s'.maps.any (mapClash name start end_) →
    s.maps.any (mapClash name start end_)

theorem mapsKept_of_maps {s s' : Common w σ} (name : CString) (h : s'.maps = s.maps) :
    MapsKept s s' name :=
  ⟨h, fun n => by simp only [mapGet, h], fun start end_ => by simp only [h, imp_self]⟩

section Heap
variable {p : Platform w σ} {s s' : Common w σ}

/-- The loop over the HAL's ranges ends well exactly when there is a block for
each of them. -/
theorem mapEntries_ok_iff (end_ start : BitVec w) (entries : List (MapEnt w))
    (htop : s.heapTop < p.heapLimit) :
    0 ≤ (mapEntries p end_ (heapFree p s) s start entries).2.2 ↔
      ∃ es, HalEntries p s.hal end_ start es ∧
        allocAll p s (es.map fun _ => p.sizeofMapent) ≠ none := by
  induction hn : heapFree p s using Nat.strong_induction_on generalizing s start entries with
  | _ n ih =>
      subst hn
      rw [mapEntries_loop end_ htop]
      cases hnext : p.memoryGetNextEntry s.hal start end_ with
      | none =>
          refine iff_of_true (show 0 ≤ EOK by decide) ⟨[], .done hnext, ?_⟩
          exact Option.some_ne_none s
      | some temp =>
          cases halloc : alloc p s p.sizeofMapent with
          | none =>
              refine iff_of_false (show ¬ 0 ≤ -ENOMEM by decide) ?_
              rintro ⟨es, hes, hroom⟩
              cases hes with
              | done h => exact Option.some_ne_none temp (hnext.symm.trans h)
              | more h rest => exact hroom (by simp only [List.map_cons, allocAll, halloc])
          | some r =>
              obtain ⟨a, s'⟩ := r
              have hhal := (alloc_lists halloc).2.2
              rw [ih _ (heapFree_alloc htop halloc) temp.end_ _ (alloc_mapent_top htop halloc).2
                rfl, hhal]
              constructor
              · rintro ⟨es, hes, hroom⟩
                refine ⟨temp :: es, .more hnext hes, ?_⟩
                simpa only [List.map_cons, allocAll, halloc] using hroom
              · rintro ⟨es, hes, hroom⟩
                cases hes with
                | done h => exact absurd (hnext.symm.trans h) (Option.some_ne_none temp)
                | more h rest =>
                    obtain rfl := Option.some.inj (hnext.symm.trans h)
                    refine ⟨_, rest, ?_⟩
                    simpa only [List.map_cons, allocAll, halloc] using hroom

end Heap

theorem refused_of_mapPrepare_error {p : Platform w σ} {s s' : Common w σ} {q : MapReq w}
    {res : Int} (h : mapPrepare p s q.name q.start q.end_ q.attr = (s', .error res)) :
    q.Refused p s := by
  unfold mapPrepare at h
  split at h
  · next hclash => exact Or.inl hclash
  · split at h
    · next h₁ => exact Or.inr (Or.inl (by simp only [MapReq.record, allocAll, h₁]))
    · next h₁ =>
      split at h
      · next h₂ => exact Or.inr (Or.inl (by simp only [MapReq.record, allocAll, h₁, h₂]))
      · split at h
        · next hattr => exact Or.inr (Or.inr ⟨_, hattr⟩)
        · cases h

theorem not_refused_of_mapPrepare_ok {p : Platform w σ} {s s' : Common w σ} {q : MapReq w}
    {map : SysMap w} (h : mapPrepare p s q.name q.start q.end_ q.attr = (s', .ok map)) :
    ¬ q.Refused p s ∧ allocAll p s (q.record p) = some s' := by
  simp only [mapPrepare] at h
  split at h
  · cases h
  · next hclash =>
    split at h
    · cases h
    · next h₁ =>
      split at h
      · cases h
      · next h₂ =>
        split at h
        · cases h
        · next hattr =>
          cases h
          have hall : allocAll p s (q.record p) = some s' := by
            simp only [MapReq.record, allocAll, h₁, h₂]
          refine ⟨?_, hall⟩
          rintro (hc | hnone | ⟨res, herr⟩)
          · exact hclash hc
          · exact Option.some_ne_none _ (hall.symm.trans hnone)
          · cases hattr.symm.trans herr

/-- A target with the MPU of ARMv7-M, as `hal_memoryAddMap` uses it. -/
def mpu32 : Platform 32 Hal.MpuCommon where
  heapBase := 0x00100000
  heapLimit := 0x00105000
  sizeofSyspage := 64
  sizeofMap := 36
  sizeofMapent := 20
  sizeofProg := 36
  sizePage := 0x1000
  memoryGetNextEntry := fun _ _ _ => none
  memoryAddMap := fun mpu start end_ attr mapId => Hal.regionAlloc mpu start end_ attr mapId 1
  heapLimit_room := flat32.heapLimit_room
  sizeofMapent_pos := flat32.sizeofMapent_pos

/-- Sixteen bytes, half of what a region can have. -/
def tinyMap : MapReq 32 := ⟨.ofBuffer [0x6d], 0x20000010, 0x20000020, .ofBuffer []⟩

end Plo.Syspage
