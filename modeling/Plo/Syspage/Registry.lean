import Mathlib.Data.List.Nodup
import Plo.Base.Run
import Plo.Syspage.Placement

/-!
The maps as a registry. Requests come one after another; some are refused, some
fail after the map was linked, and the rest are accepted. The overlap test of
`syspage_mapAdd` compares the two ends as they stand, although an end of zero
means the top of the address space to the MPU layer, and ids are eight bits wide.
-/
namespace Plo.Syspage
variable {w : Nat} {σ : Type}

structure MapReq (w : Nat) where
  name : CString
  start : BitVec w
  end_ : BitVec w
  attr : CString

/-- The system page with the maps of the calls that reported success. -/
structure Registry (w : Nat) (σ : Type) where
  sys : Common w σ
  accepted : List (SysMap w)

def register (p : Platform w σ) (r : Registry w σ) (q : MapReq w) : Registry w σ :=
  let res := mapAdd p r.sys q.name q.start q.end_ q.attr
  ⟨res.1, if res.2 < 0 then r.accepted
    else r.accepted ++ res.1.maps.drop r.sys.maps.length⟩

/-- The range is not empty; where it or an older map reaches the top, the two do
not meet; and there is an id left. -/
structure MapReq.Safe (r : Registry w σ) (q : MapReq w) : Prop where
  nonempty : q.start.toNat < rangeEnd q.end_
  top : ∀ map ∈ r.sys.maps, map.end_ = 0 ∨ q.end_ = 0 →
    RangesApart map.start map.end_ q.start q.end_
  ids : r.sys.maps.length < 256

/-- What the MPU layer and the kernel rely on. -/
structure Registry.Sound (r : Registry w σ) : Prop where
  nonempty : ∀ map ∈ r.accepted, map.start.toNat < rangeEnd map.end_
  apart : r.accepted.Pairwise (fun a b => RangesApart a.start a.end_ b.start b.end_)
  names : (r.accepted.map (·.name)).Nodup
  ids : (r.accepted.map (·.id)).Nodup
  resolve : ∀ map ∈ r.accepted, ∃ id, mapNameResolve r.sys map.name = some id ∧
    mapName r.sys id = some map.name

/-- The invariant concerns every linked map, accepted or not. -/
structure Registry.Inv (r : Registry w σ) : Prop where
  nonempty : ∀ map ∈ r.sys.maps, map.start.toNat < rangeEnd map.end_
  apart : r.sys.maps.Pairwise (fun a b => RangesApart a.start a.end_ b.start b.end_)
  names : (r.sys.maps.map (·.name)).Nodup
  ids : r.sys.maps.map (·.id) = (List.range r.sys.maps.length).map (BitVec.ofNat 8)
  count : r.sys.maps.length ≤ 256
  linked : r.accepted.Sublist r.sys.maps

theorem Registry.Inv.ids_nodup {r : Registry w σ} (h : r.Inv) :
    (r.sys.maps.map (·.id)).Nodup := by
  rw [h.ids]
  refine List.Nodup.map_on ?_ List.nodup_range
  intro i hi j hj hij
  have hcount := h.count
  rw [List.mem_range] at hi hj
  have hval := congrArg BitVec.toNat hij
  simp only [BitVec.toNat_ofNat] at hval
  omega

private theorem find?_of_unique {α : Type} {l : List α} {q : α → Bool} {a : α} (ha : a ∈ l)
    (hq : q a) (huniq : ∀ b ∈ l, q b → b = a) : l.find? q = some a := by
  cases h : l.find? q with
  | none => exact absurd hq (List.find?_eq_none.mp h a ha)
  | some b => rw [huniq b (List.mem_of_find?_eq_some h) (List.find?_some h)]

theorem Registry.Inv.sound {r : Registry w σ} (h : r.Inv) : r.Sound where
  nonempty map hmap := h.nonempty map (h.linked.subset hmap)
  apart := h.apart.sublist h.linked
  names := h.names.sublist (h.linked.map _)
  ids := h.ids_nodup.sublist (h.linked.map _)
  resolve map hmap := by
    have hmem := h.linked.subset hmap
    have hget : mapGet r.sys map.name = some map := by
      refine find?_of_unique hmem (by simp) ?_
      intro b hb heq
      exact List.inj_on_of_nodup_map h.names hb hmem (by simpa using (of_decide_eq_true heq).symm)
    have hid : r.sys.maps.find? (fun m => m.id = map.id) = some map := by
      refine find?_of_unique hmem (by simp) ?_
      intro b hb heq
      exact List.inj_on_of_nodup_map h.ids_nodup hb hmem (by simpa using heq)
    exact ⟨map.id, by simp [mapNameResolve, hget], by simp [mapName, hid]⟩

theorem nextId_of_ids {maps : List (SysMap w)}
    (h : maps.map (·.id) = (List.range maps.length).map (BitVec.ofNat 8)) :
    nextId maps = BitVec.ofNat 8 maps.length := by
  simp only [nextId]
  rcases List.eq_nil_or_concat' maps with rfl | ⟨ms, m, rfl⟩
  · rfl
  · simp only [List.length_append, List.length_singleton, List.range_succ, List.map_append,
      List.map_singleton] at h
    have hlast := (List.append_inj' h rfl).2
    rw [List.getLast?_concat, List.length_append, List.length_singleton, BitVec.ofNat_add]
    exact congrArg (· + 1) (List.singleton_inj.mp hlast)

/-- A range that fails the overlap test of the code, or that reaches the top and
was checked by the caller, is apart from the map. -/
theorem rangesApart_of_not_clash {name : CString} {start end_ : BitVec w} {map : SysMap w}
    (hclash : ¬ mapClash name start end_ map)
    (htop : map.end_ = 0 ∨ end_ = 0 → RangesApart map.start map.end_ start end_) :
    RangesApart map.start map.end_ start end_ := by
  by_cases hzero : map.end_ = 0 ∨ end_ = 0
  · exact htop hzero
  · rw [not_or] at hzero
    simp only [mapClash, decide_eq_true_eq, not_or, not_and, gt_iff_lt, BitVec.lt_def] at hclash
    simp only [RangesApart, rangeEnd, if_neg hzero.1, if_neg hzero.2]
    omega

theorem register_inv {p : Platform w σ} (r : Registry w σ) (q : MapReq w) (h : r.Inv)
    (hsafe : q.Safe r) : (register p r q).Inv := by
  rcases mapAdd_cases p r.sys q.name q.attr q.start q.end_ with
    ⟨s', res, -, hadd, hmaps, -⟩ | ⟨s', map, hprep, hmaps, -, -⟩
  · have hsame : (register p r q).sys.maps = r.sys.maps := by
      simp only [register, hadd, hmaps]
    have hacc : (register p r q).accepted = r.accepted := by
      simp only [register, hadd, hmaps, List.drop_length, List.append_nil, ite_self]
    constructor
    · rw [hsame]; exact h.nonempty
    · rw [hsame]; exact h.apart
    · rw [hsame]; exact h.names
    · rw [hsame]; exact h.ids
    · rw [hsame]; exact h.count
    · rw [hsame, hacc]; exact h.linked
  · obtain ⟨hclash, -, iattr, -, rfl⟩ := mapPrepare_ok hprep
    set new : SysMap w := ⟨q.name, q.start, q.end_, iattr, nextId r.sys.maps,
      (mapEntries p q.end_ (heapFree p s') s' q.start []).2.1⟩ with hnew
    have hsys : (register p r q).sys.maps = r.sys.maps ++ [new] := hmaps
    have hname (m : SysMap w) (hm : m ∈ r.sys.maps) : q.name ≠ m.name := by
      have hno := hclash m hm
      simp only [mapClash, decide_eq_true_eq, not_or] at hno
      exact hno.2
    constructor
    · intro m hm
      rw [hsys] at hm
      cases List.mem_append.mp hm with
      | inl hm =>
        exact h.nonempty m hm
      | inr hm =>
        rw [List.mem_singleton.mp hm]
        exact hsafe.nonempty
    · rw [hsys]
      refine List.pairwise_append.mpr ⟨h.apart, List.pairwise_singleton _ _, ?_⟩
      intro m hm n hn
      rw [List.mem_singleton.mp hn]
      exact rangesApart_of_not_clash (hclash m hm) (hsafe.top m hm)
    · rw [hsys, List.map_append]
      refine List.nodup_append.mpr ⟨h.names, List.nodup_singleton _, ?_⟩
      intro a ha b hb
      obtain ⟨m, hm, rfl⟩ := List.mem_map.mp ha
      rw [List.map_singleton, List.mem_singleton] at hb
      rw [hb]
      exact (hname m hm).symm
    · rw [hsys, List.map_append, h.ids, List.length_append, List.length_singleton,
        List.range_succ, List.map_append, List.map_singleton, List.map_singleton, hnew,
        nextId_of_ids h.ids]
    · rw [hsys, List.length_append, List.length_singleton]
      exact hsafe.ids
    · rw [hsys]
      simp only [register]
      split
      · exact h.linked.trans (List.sublist_append_left _ _)
      · rw [hmaps, List.drop_left]
        exact h.linked.append (List.Sublist.refl _)

/-- In every run of safe requests the accepted maps are non-empty and disjoint,
with different names and ids, and a name resolves to an id that leads back. -/
theorem safe_requests_keep_registry_sound (p : Platform w σ) (hal : σ) (r : Registry w σ)
    (hr : Reachable (register p) (fun r q => q.Safe r) ⟨init p hal, []⟩ r) : r.Sound := by
  refine (hr.invariant (I := Registry.Inv) ?_ register_inv).sound
  exact ⟨by simp [init], by simp [init], by simp [init], by simp [init], by simp [init],
    List.Sublist.slnil⟩

def lowPage : MapReq 32 := ⟨.ofBuffer [0x6d], 0x1000, 0x2000, .ofBuffer []⟩

/-- The map `t` from 4 KiB to the top. -/
def toTop : MapReq 32 := ⟨.ofBuffer [0x74], 0x1000, 0, .ofBuffer []⟩

def nextPage : MapReq 32 := ⟨.ofBuffer [0x6e], 0x2000, 0x3000, .ofBuffer []⟩

theorem safe_requests_keep_registry_sound_pages :
    (register flat32 (register flat32 ⟨init flat32 (), []⟩ lowPage) nextPage).Sound := by
  refine safe_requests_keep_registry_sound flat32 () _ (.step (.step .init ?_) ?_)
  · exact ⟨by decide, by simp [init], by decide⟩
  · exact ⟨by decide, by unfold RangesApart; decide, by decide⟩

/-- A map up to the top of the address space does not keep others out. -/
theorem toTop_shares_memory :
    Reachable (register flat32) (fun _ _ => True) ⟨init flat32 (), []⟩
        (register flat32 (register flat32 ⟨init flat32 (), []⟩ toTop) nextPage) ∧
      ¬ (register flat32 (register flat32 ⟨init flat32 (), []⟩ toTop) nextPage).Sound := by
  refine ⟨.step (.step .init trivial) trivial, ?_⟩
  intro h
  have hapart := h.apart
  simp only [RangesApart] at hapart
  revert hapart
  decide

end Plo.Syspage
