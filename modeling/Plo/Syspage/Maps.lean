import Plo.Syspage.State
import Plo.Base.Packing

/-!
Definition of memory maps. A new map is linked into the list before the HAL's
own ranges are entered into it and before the HAL accepts it; a failure in
either of the last two steps leaves the map in the list.
-/
namespace Plo.Syspage
variable {w : Nat} {σ : Type}

def Attrs.add (attr : Attrs) (c : UInt8) : Except Int Attrs :=
  if c = 'r'.toUInt8 then .ok { attr with read := true }
  else if c = 'w'.toUInt8 then .ok { attr with write := true }
  else if c = 'x'.toUInt8 then .ok { attr with exec := true }
  else if c = 's'.toUInt8 then .ok { attr with shareable := true }
  else if c = 'c'.toUInt8 then .ok { attr with cacheable := true }
  else if c = 'b'.toUInt8 then .ok { attr with bufferable := true }
  else .error (-EINVAL)

def strAttr2ui (str : CString) : Except Int Attrs :=
  str.bytes.foldlM Attrs.add ⟨false, false, false, false, false, false⟩

/-- The new entry goes before the first entry that starts later, else to the end. -/
def sortedInsert (entries : List (MapEnt w)) (newEntry : MapEnt w) : List (MapEnt w) :=
  entries.orderedInsert (fun a b => a.start < b.start) newEntry

/-- The test `syspage_mapAdd` makes against each map of the list. -/
def mapClash (name : CString) (start end_ : BitVec w) (map : SysMap w) : Bool :=
  (map.start < end_ ∧ map.end_ > start) ∨ name = map.name

/-- The loop of `syspage_mapAdd` over `hal_memoryGetNextEntry`. Each turn takes a
block from the heap, so the free bytes of the heap are enough fuel. -/
def mapEntries (p : Platform w σ) (end_ : BitVec w) :
    Nat → Common w σ → BitVec w → List (MapEnt w) → Common w σ × List (MapEnt w) × Int
  | 0, s, start, entries =>
    match p.memoryGetNextEntry s.hal start end_ with
    | none => (s, entries, EOK)
    | some _ => (s, entries, -ENOMEM)
  | fuel + 1, s, start, entries =>
    match p.memoryGetNextEntry s.hal start end_ with
    | none => (s, entries, EOK)
    | some temp =>
      match alloc p s p.sizeofMapent with
      | none => (s, entries, -ENOMEM)
      | some (_, s) => mapEntries p end_ fuel s temp.end_ (sortedInsert entries temp)

def heapFree (p : Platform w σ) (s : Common w σ) : Nat := p.heapLimit.toNat - s.heapTop.toNat

/-- The id of a map linked after `maps`: it continues from the last one, in
eight bits. -/
def nextId (maps : List (SysMap w)) : BitVec 8 :=
  match maps.getLast? with
  | none => 0
  | some prev => prev.id + 1

/-- The part of `syspage_mapAdd` before the map is linked: the map record
without entries, or the error. -/
def mapPrepare (p : Platform w σ) (s : Common w σ) (name : CString) (start end_ : BitVec w)
    (attr : CString) : Common w σ × Except Int (SysMap w) :=
  if s.maps.any (mapClash name start end_) then (s, .error (-EINVAL))
  else
    match alloc p s p.sizeofMap with
    | none => (s, .error (-ENOMEM))
    | some (_, s) =>
      match alloc p s (BitVec.ofNat w (name.bytes.length + 1)) with
      | none => (s, .error (-ENOMEM))
      | some (_, s) =>
        match strAttr2ui attr with
        | .error res => (s, .error res)
        | .ok iattr =>
          (s, .ok ⟨name, start, end_, iattr, nextId s.maps, []⟩)

def mapAdd (p : Platform w σ) (s : Common w σ) (name : CString) (start end_ : BitVec w)
    (attr : CString) : Common w σ × Int :=
  match mapPrepare p s name start end_ attr with
  | (s, .error res) => (s, res)
  | (s, .ok map) =>
    let (s', entries, res) := mapEntries p end_ (heapFree p s) s start []
    let s' := { s' with maps := s.maps ++ [{ map with entries := entries }] }
    if res < 0 then (s', res)
    else
      let (hal, res) := p.memoryAddMap s'.hal map.start map.end_ map.attr (map.id.setWidth 32)
      if res < 0 then ({ s' with hal := hal }, res) else ({ s' with hal := hal }, EOK)

def mapNameResolve (s : Common w σ) (name : CString) : Option (BitVec 8) :=
  (mapGet s name).map (·.id)

def mapAttrResolve (s : Common w σ) (name : CString) : Option Attrs :=
  (mapGet s name).map (·.attr)

def mapRangeResolve (s : Common w σ) (name : CString) : Option (BitVec w × BitVec w) :=
  (mapGet s name).map (fun map => (map.start, map.end_))

def mapName (s : Common w σ) (id : BitVec 8) : Option CString :=
  (s.maps.find? (fun map => map.id = id)).map (·.name)

theorem alloc_below {p : Platform w σ} {s s' : Common w σ} {size a : BitVec w}
    (h : alloc p s size = some (a, s')) : s'.heapTop < p.heapLimit := by
  simp only [alloc] at h
  split at h
  · cases h
  · next hge =>
    cases h
    exact BitVec.not_le.mp hge

theorem mapPrepare_lists (p : Platform w σ) (s : Common w σ) (name attr : CString)
    (start end_ : BitVec w) :
    (mapPrepare p s name start end_ attr).1.maps = s.maps ∧
      (mapPrepare p s name start end_ attr).1.progs = s.progs ∧
      (mapPrepare p s name start end_ attr).1.hal = s.hal := by
  simp only [mapPrepare]
  split
  · exact ⟨rfl, rfl, rfl⟩
  · split
    · exact ⟨rfl, rfl, rfl⟩
    · next s₁ h₁ =>
      have l₁ := alloc_lists h₁
      split
      · exact l₁
      · next s₂ h₂ =>
        have l₂ := alloc_lists h₂
        have l : s₂.maps = s.maps ∧ s₂.progs = s.progs ∧ s₂.hal = s.hal :=
          ⟨l₂.1.trans l₁.1, l₂.2.1.trans l₁.2.1, l₂.2.2.trans l₁.2.2⟩
        split <;> exact l

theorem mapPrepare_ok {p : Platform w σ} {s s' : Common w σ} {name attr : CString}
    {start end_ : BitVec w} {map : SysMap w}
    (h : mapPrepare p s name start end_ attr = (s', .ok map)) :
    (∀ m ∈ s.maps, ¬ mapClash name start end_ m) ∧ s'.heapTop < p.heapLimit ∧
      ∃ iattr, strAttr2ui attr = .ok iattr ∧
        map = ⟨name, start, end_, iattr, nextId s.maps, []⟩ := by
  simp only [mapPrepare] at h
  split at h
  · cases h
  · next hclash =>
    split at h
    · cases h
    · next s₁ h₁ =>
      split at h
      · cases h
      · next s₂ h₂ =>
        have l₁ := (alloc_lists h₁).1
        have l₂ := (alloc_lists h₂).1
        split at h
        · cases h
        · next iattr hattr =>
          cases h
          refine ⟨by simpa using hclash, alloc_below h₂, iattr, hattr, ?_⟩
          rw [l₂, l₁]

theorem mapEntries_lists (p : Platform w σ) (end_ : BitVec w) (fuel : Nat) (s : Common w σ)
    (start : BitVec w) (entries : List (MapEnt w)) :
    (mapEntries p end_ fuel s start entries).1.progs = s.progs ∧
      (mapEntries p end_ fuel s start entries).1.hal = s.hal := by
  induction fuel generalizing s start entries with
  | zero =>
      simp only [mapEntries]
      split <;> exact ⟨rfl, rfl⟩
  | succ fuel ih =>
      simp only [mapEntries]
      split
      · exact ⟨rfl, rfl⟩
      · split
        · exact ⟨rfl, rfl⟩
        · next hs =>
          have l := (alloc_lists hs).2
          obtain ⟨hp, hh⟩ := ih _ _ _
          exact ⟨hp.trans l.1, hh.trans l.2⟩

section Fuel
variable {p : Platform w σ} {s s' : Common w σ} {a : BitVec w}

theorem toNat_eight (p : Platform w σ) : (8 : BitVec w).toNat = 2 ^ 3 := by
  have hroom := p.heapLimit_room
  simp only [BitVec.ofNat_eq_ofNat, BitVec.toNat_ofNat]
  exact Nat.mod_eq_of_lt (by have := p.sizeofMapent_pos; omega)

/-- A block for a map entry moves the top of the heap up, never around. -/
theorem alloc_mapent_top (htop : s.heapTop < p.heapLimit)
    (h : alloc p s p.sizeofMapent = some (a, s')) :
    s.heapTop < s'.heapTop ∧ s'.heapTop < p.heapLimit := by
  refine ⟨?_, alloc_below h⟩
  have hroom := p.heapLimit_room
  have hpos := p.sizeofMapent_pos
  rw [BitVec.lt_def] at htop ⊢
  simp only [alloc] at h
  split at h
  · cases h
  · cases h
    have hsum : (s.heapTop + p.sizeofMapent).toNat = s.heapTop.toNat + p.sizeofMapent.toNat :=
      BitVec.toNat_add_of_lt (by omega)
    rw [toNat_alignAddr (le_refl w) (toNat_eight p), hsum, Nat.mod_mod,
      Nat.mod_eq_of_lt (by omega)]
    omega

theorem heapFree_alloc (htop : s.heapTop < p.heapLimit)
    (h : alloc p s p.sizeofMapent = some (a, s')) : heapFree p s' < heapFree p s := by
  obtain ⟨hup, hlim⟩ := alloc_mapent_top htop h
  rw [BitVec.lt_def] at hup hlim
  simp only [heapFree]
  omega

theorem mapEntries_enough (end_ : BitVec w) {f g : Nat} (htop : s.heapTop < p.heapLimit)
    (hf : heapFree p s ≤ f) (hg : heapFree p s ≤ g) (start : BitVec w)
    (entries : List (MapEnt w)) :
    mapEntries p end_ f s start entries = mapEntries p end_ g s start entries := by
  have hpos : 0 < heapFree p s := Nat.sub_pos_of_lt (BitVec.lt_def.mp htop)
  induction f generalizing g s start entries with
  | zero => omega
  | succ f ih =>
      cases g with
      | zero => omega
      | succ g =>
          simp only [mapEntries]
          split
          · rfl
          · split
            · rfl
            · next h =>
              have hless := heapFree_alloc htop h
              have hbelow := (alloc_mapent_top htop h).2
              exact ih hbelow (by omega) (by omega) _ _
                (Nat.sub_pos_of_lt (BitVec.lt_def.mp hbelow))

/-- No fuel is missing: with the free bytes as fuel, the loop goes on as long as
the HAL has another range and the heap another block. -/
theorem mapEntries_loop (end_ : BitVec w) (htop : s.heapTop < p.heapLimit)
    (start : BitVec w) (entries : List (MapEnt w)) :
    mapEntries p end_ (heapFree p s) s start entries =
      match p.memoryGetNextEntry s.hal start end_ with
      | none => (s, entries, EOK)
      | some temp =>
        match alloc p s p.sizeofMapent with
        | none => (s, entries, -ENOMEM)
        | some (_, s') =>
          mapEntries p end_ (heapFree p s') s' temp.end_ (sortedInsert entries temp) := by
  have hpos : 0 < heapFree p s := Nat.sub_pos_of_lt (BitVec.lt_def.mp htop)
  obtain ⟨n, hn⟩ := Nat.exists_eq_succ_of_ne_zero hpos.ne'
  rw [hn]
  simp only [mapEntries]
  split
  · rfl
  · split
    · rfl
    · next h =>
      have hless := heapFree_alloc htop h
      exact mapEntries_enough end_ (alloc_mapent_top htop h).2 (by omega) le_rfl _ _

end Fuel

/-- The two ways `syspage_mapAdd` can go: it fails before linking the map, or the
map is linked with the entries collected and the result tells whether all of
them, and the HAL's own table, had room. -/
theorem mapAdd_cases (p : Platform w σ) (s : Common w σ) (name attr : CString)
    (start end_ : BitVec w) :
    (∃ s' res, mapPrepare p s name start end_ attr = (s', .error res) ∧
      mapAdd p s name start end_ attr = (s', res) ∧ s'.maps = s.maps ∧ s'.progs = s.progs) ∨
    ∃ s' map, mapPrepare p s name start end_ attr = (s', .ok map) ∧
      (mapAdd p s name start end_ attr).1.maps = s.maps ++
        [{ map with entries := (mapEntries p end_ (heapFree p s') s' start []).2.1 }] ∧
      (mapAdd p s name start end_ attr).1.progs = s.progs ∧
      (mapAdd p s name start end_ attr).2 =
        if (mapEntries p end_ (heapFree p s') s' start []).2.2 < 0 then
          (mapEntries p end_ (heapFree p s') s' start []).2.2
        else min (p.memoryAddMap s.hal start end_ map.attr (map.id.setWidth 32)).2 EOK := by
  have hl := mapPrepare_lists p s name attr start end_
  simp only [mapAdd]
  rcases hprep : mapPrepare p s name start end_ attr with ⟨s', res | map⟩
  all_goals
    obtain ⟨hmaps, hprogs, hhal⟩ :
        s'.maps = s.maps ∧ s'.progs = s.progs ∧ s'.hal = s.hal := by rwa [hprep] at hl
  · exact Or.inl ⟨s', res, rfl, rfl, hmaps, hprogs⟩
  · obtain ⟨_, _, iattr, _, rfl⟩ := mapPrepare_ok hprep
    obtain ⟨hprogs', hhal'⟩ := mapEntries_lists p end_ (heapFree p s') s' start []
    refine Or.inr ⟨s', _, rfl, ?_⟩
    simp only [hmaps, hhal', hhal]
    by_cases hres : (mapEntries p end_ (heapFree p s') s' start []).2.2 < 0
    · simp only [if_pos hres]
      exact ⟨trivial, hprogs'.trans hprogs, trivial⟩
    · simp only [if_neg hres]
      split
      · next hneg => exact ⟨rfl, hprogs'.trans hprogs, (min_eq_left hneg.le).symm⟩
      · next hneg => exact ⟨rfl, hprogs'.trans hprogs, (min_eq_right (not_lt.mp hneg)).symm⟩

end Plo.Syspage
