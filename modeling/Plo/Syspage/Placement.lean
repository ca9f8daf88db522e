import Plo.Base.Run
import Plo.Syspage.BestFit
import Plo.Syspage.Progs

/-!
Entries over whole runs. Maps are defined, entries are placed in them in the
three ways `syspage_entryAdd` knows, and programs allocate their memory; the
entries of a map stay inside it and apart from each other in every run whose
placements meet `Call.Safe`. The code itself does not check that condition.
-/
namespace Plo.Syspage
variable {w : Nat} {σ : Type}

inductive Call (w : Nat) where
  | mapAdd (name : CString) (start end_ : BitVec w) (attr : CString)
  | entryAdd (mapName : Option CString) (start size : BitVec w) (align : BitVec 32)
  | progAllocateAndAdd (map : Option CString) (size : BitVec w) (argv : CString)
      (flags : BitVec 32) (allowOverwrite : Int)

def step (p : Platform w σ) (s : Common w σ) : Call w → Common w σ
  | .mapAdd name start end_ attr => (mapAdd p s name start end_ attr).1
  | .entryAdd mapName start size align => (entryAdd p s mapName start size align).1
  | .progAllocateAndAdd map size argv flags allowOverwrite =>
      (progAllocateAndAdd p s map size argv flags allowOverwrite).1

/-- Non-empty maps, non-empty requests, and alignments that are powers of two. -/
def Call.WellFormed (p : Platform w σ) : Call w → Prop
  | .mapAdd _ start end_ _ => start < end_
  | .entryAdd _ _ size align => 0 < size.toNat ∧ AlignOk align
  | .progAllocateAndAdd _ size _ _ _ => 0 < size.toNat ∧ AlignOk p.sizePage

/-- The request stays inside the map it is answered from. -/
def PlaceSafe (map : SysMap w) (mapName : Option CString) (start size : BitVec w)
    (align : BitVec 32) : Prop :=
  if mapName ≠ none ∧ start = -1 then map.BestFitSafe size align
  else
    let a := alignAddr (if mapName = none then start else map.start + start) align
    map.start ≤ a ∧ a.toNat + size.toNat ≤ map.end_.toNat

def Call.Safe (p : Platform w σ) (s : Common w σ) : Call w → Prop
  | .mapAdd _ _ _ _ => True
  | .entryAdd mapName start size align =>
      ∀ i map, entryMap s mapName start size = some i → s.maps[i]? = some map →
        PlaceSafe map mapName start size align
  | .progAllocateAndAdd mapName size _ _ _ =>
      ∀ i map, entryMap s mapName (-1) size = some i → s.maps[i]? = some map →
        PlaceSafe map mapName (-1) size p.sizePage

/-- `hal_memoryGetNextEntry` yields ascending, non-empty ranges inside the map. -/
def HalLawful (p : Platform w σ) : Prop :=
  ∀ hal start end_ e, p.memoryGetNextEntry hal start end_ = some e →
    start ≤ e.start ∧ e.start < e.end_ ∧ e.end_ ≤ end_

def MapEnt.Disjoint (a b : MapEnt w) : Prop := a.end_ ≤ b.start ∨ b.end_ ≤ a.start

instance (a b : MapEnt w) : Decidable (a.Disjoint b) :=
  inferInstanceAs (Decidable (_ ∨ _))

/-- Every entry is a range inside its map, and no two entries of a map overlap. -/
def EntriesSeparate (s : Common w σ) : Prop :=
  ∀ map ∈ s.maps,
    (∀ e ∈ map.entries, map.start ≤ e.start ∧ e.start < e.end_ ∧ e.end_ ≤ map.end_) ∧
      map.entries.Pairwise MapEnt.Disjoint

instance (s : Common w σ) : Decidable (EntriesSeparate s) :=
  inferInstanceAs (Decidable (∀ map ∈ s.maps, _ ∧ _))

def ranges (s : Common w σ) : List (BitVec w × BitVec w) :=
  s.maps.map (fun map => (map.start, map.end_))

/-- The invariant of guarded runs: packed maps that do not overlap one another. -/
structure PlacementInv (s : Common w σ) : Prop where
  packed : ∀ map ∈ s.maps, map.Packed
  apart : (ranges s).Pairwise (fun a b => a.2 ≤ b.1 ∨ b.2 ≤ a.1)

theorem sortedInsert_eq (entries : List (MapEnt w)) (e : MapEnt w) :
    sortedInsert entries e = entries.orderedInsert (fun a b => a.lo < b.lo) e := rfl

theorem PlacementInv.separate {s : Common w σ} (h : PlacementInv s) : EntriesSeparate s := by
  intro map hmap
  have hpack := h.packed map hmap
  refine ⟨?_, ?_⟩
  · intro e he
    obtain ⟨hl, hlt, hu⟩ := Packed.mem hpack he
    exact ⟨BitVec.le_def.mpr hl, BitVec.lt_def.mpr hlt, BitVec.le_def.mpr hu⟩
  · exact (Packed.pairwise hpack).imp (fun h => Or.inl (BitVec.le_def.mpr h))

theorem PlacementInv.congr {s s' : Common w σ} (h : PlacementInv s) (hmaps : s'.maps = s.maps) :
    PlacementInv s' :=
  ⟨by rw [hmaps]; exact h.packed, by rw [ranges, hmaps]; exact h.apart⟩

theorem mapEntries_packed {p : Platform w σ} (hhal : HalLawful p) {end_ : BitVec w}
    (fuel : Nat) (s : Common w σ) {start : BitVec w} {l : Nat} {entries : List (MapEnt w)}
    (hle : start ≤ end_) (hpack : Packed MapEnt.lo MapEnt.hi start.toNat l entries) :
    Packed MapEnt.lo MapEnt.hi end_.toNat l (mapEntries p end_ fuel s start entries).2.1 := by
  induction fuel generalizing s start entries with
  | zero =>
      simp only [mapEntries]
      split <;> exact hpack.mono_right (BitVec.le_def.mp hle)
  | succ fuel ih =>
      simp only [mapEntries]
      split
      · exact hpack.mono_right (BitVec.le_def.mp hle)
      · next temp htemp =>
        obtain ⟨hstart, hlt, hend⟩ := hhal _ _ _ _ htemp
        split
        · exact hpack.mono_right (BitVec.le_def.mp hle)
        · apply ih _ hend
          rw [BitVec.le_def] at hstart
          rw [BitVec.lt_def] at hlt
          rw [sortedInsert_eq]
          have hwide := hpack.mono_right (hstart.trans hlt.le)
          refine hwide.orderedInsert ((hpack.le).trans hstart) hlt le_rfl ?_
          intro e he
          exact Or.inr ((hpack.mem he).2.2.trans hstart)

theorem inv_mapAdd {p : Platform w σ} (hhal : HalLawful p) {s : Common w σ}
    (hinv : PlacementInv s) (name attr : CString) {start end_ : BitVec w}
    (hrange : start < end_) : PlacementInv (mapAdd p s name start end_ attr).1 := by
  rcases mapAdd_cases p s name attr start end_ with ⟨s', res, -, hadd, hmaps, -⟩ |
    ⟨s', map, hprep, hmaps, -, -⟩
  · rw [hadd]
    exact hinv.congr hmaps
  · obtain ⟨hclash, -, iattr, -, rfl⟩ := mapPrepare_ok hprep
    constructor
    · intro m hm
      rw [hmaps] at hm
      cases List.mem_append.mp hm with
      | inl hm =>
        exact hinv.packed m hm
      | inr hm =>
        rw [List.mem_singleton.mp hm]
        rw [BitVec.lt_def] at hrange
        exact mapEntries_packed hhal _ _ (BitVec.le_def.mpr hrange.le) (le_refl start.toNat)
    · rw [ranges, hmaps, List.map_append]
      refine List.pairwise_append.mpr ⟨hinv.apart, List.pairwise_singleton _ _, ?_⟩
      intro r hr q hq
      obtain ⟨m, hm, rfl⟩ := List.mem_map.mp hr
      rw [List.map_singleton, List.mem_singleton] at hq
      subst hq
      have hno := hclash m hm
      simp only [mapClash, decide_eq_true_eq, not_or, not_and] at hno
      by_cases hlt : m.start < end_
      · exact Or.inl (BitVec.not_lt.mp (hno.1 hlt))
      · exact Or.inr (BitVec.not_lt.mp hlt)

theorem map_set_same {α β : Type} {f : α → β} {l : List α} {i : Nat} {a b : α}
    (ha : l[i]? = some a) (hf : f b = f a) : (l.set i b).map f = l.map f := by
  obtain ⟨hi, rfl⟩ := List.getElem?_eq_some_iff.mp ha
  have hi' : i < (l.map f).length := by simpa using hi
  have hself := List.set_getElem_self hi'
  rwa [List.getElem_map, ← hf, ← List.map_set] at hself

/-- What `syspage_entryAdd` did: nothing, or one entry more in one map. -/
theorem entryAdd_cases (p : Platform w σ) (s : Common w σ) (mapName : Option CString)
    (start size : BitVec w) (align : BitVec 32) :
    entryAdd p s mapName start size align = (s, none) ∨
    ∃ i map place, entryMap s mapName start size = some i ∧ s.maps[i]? = some map ∧
      entryPlace map mapName start size align = some place ∧
      (entryAdd p s mapName start size align).2 = some ⟨place, place + size, .allocated⟩ ∧
      (entryAdd p s mapName start size align).1.maps = s.maps.set i
        { map with entries := sortedInsert map.entries ⟨place, place + size, .allocated⟩ } := by
  simp only [entryAdd]
  split
  · exact Or.inl rfl
  · next i hi =>
    split
    · exact Or.inl rfl
    · next map hmap =>
      split
      · exact Or.inl rfl
      · next place hplace =>
        split
        · exact Or.inl rfl
        · next s' halloc =>
          refine Or.inr ⟨i, map, place, hi, hmap, hplace, rfl, ?_⟩
          rw [(alloc_lists halloc).1]

theorem entryPlace_fits (hw : 32 ≤ w) {map : SysMap w} (hpack : map.Packed)
    {mapName : Option CString} {start size place : BitVec w} {align : BitVec 32}
    (hsize : 0 < size.toNat) (halign : AlignOk align)
    (hsafe : PlaceSafe map mapName start size align)
    (h : entryPlace map mapName start size align = some place) :
    map.Fits size place.toNat := by
  simp only [entryPlace] at h
  unfold PlaceSafe at hsafe
  split at h
  · next hbest =>
    rw [if_pos hbest] at hsafe
    exact bestFit_fits hw hpack hsize halign hsafe h
  · next hbest =>
    rw [if_neg hbest] at hsafe
    simp only at h hsafe
    generalize alignAddr (if mapName = none then start else map.start + start) align = a
      at h hsafe
    split at h
    · cases h
    · next hover =>
      cases h
      refine ⟨BitVec.le_def.mp hsafe.1, hsafe.2, ?_⟩
      intro e he
      have hend := map.end_.isLt
      simp only [List.any_eq_true, decide_eq_true_eq, not_exists, not_and] at hover
      have hno := hover e he
      rw [BitVec.lt_def, BitVec.toNat_add_of_lt (by omega)] at hno
      by_cases hlt : e.start.toNat < place.toNat + size.toNat
      · exact Or.inr (BitVec.le_def.mp (BitVec.not_lt.mp (hno hlt)))
      · exact Or.inl (Nat.not_lt.mp hlt)

theorem inv_entryAdd {p : Platform w σ} (hw : 32 ≤ w) {s : Common w σ} (hinv : PlacementInv s)
    {mapName : Option CString} {start size : BitVec w} {align : BitVec 32}
    (hsize : 0 < size.toNat) (halign : AlignOk align)
    (hsafe : ∀ i map, entryMap s mapName start size = some i → s.maps[i]? = some map →
      PlaceSafe map mapName start size align) :
    PlacementInv (entryAdd p s mapName start size align).1 := by
  rcases entryAdd_cases p s mapName start size align with h |
    ⟨i, map, place, hi, hmap, hplace, -, hmaps⟩
  · rw [h]
    exact hinv
  · have hpack := hinv.packed map (List.mem_of_getElem? hmap)
    have hfit := entryPlace_fits hw hpack hsize halign (hsafe i map hi hmap) hplace
    have hend : (place + size).toNat = place.toNat + size.toNat :=
      BitVec.toNat_add_of_lt (by have := map.end_.isLt; have := hfit.2.1; omega)
    constructor
    · intro m hm
      rw [hmaps] at hm
      cases List.mem_or_eq_of_mem_set hm with
      | inl hm =>
        exact hinv.packed m hm
      | inr heq =>
        subst heq
        refine Packed.orderedInsert hpack hfit.1 ?_ ?_ ?_
        · simp only [MapEnt.lo, MapEnt.hi, hend]
          omega
        · simp only [MapEnt.hi, hend]
          exact hfit.2.1
        · intro e he
          simp only [Apart, MapEnt.lo, MapEnt.hi, hend]
          exact hfit.2.2 e he
    · have hsame : ranges (entryAdd p s mapName start size align).1 = ranges s := by
        rw [ranges, ranges, hmaps]
        exact map_set_same hmap rfl
      rw [hsame]
      exact hinv.apart

theorem inv_step {p : Platform w σ} (hw : 32 ≤ w) (hhal : HalLawful p) (s : Common w σ)
    (c : Call w) (hinv : PlacementInv s) (hok : c.WellFormed p ∧ c.Safe p s) :
    PlacementInv (step p s c) := by
  cases c with
  | mapAdd name start end_ attr => exact inv_mapAdd hhal hinv name attr hok.1
  | entryAdd mapName start size align => exact inv_entryAdd hw hinv hok.1.1 hok.1.2 hok.2
  | progAllocateAndAdd map size argv flags allowOverwrite =>
      cases progAllocateAndAdd_maps p s map size argv flags allowOverwrite with
      | inl h =>
        exact hinv.congr h
      | inr h =>
        exact (inv_entryAdd hw hinv hok.1.1 hok.1.2 hok.2).congr h

theorem inv_reachable {p : Platform w σ} (hw : 32 ≤ w) (hhal : HalLawful p) {hal : σ}
    {s : Common w σ} (hs : Reachable (step p)
      (fun s c => c.WellFormed p ∧ c.Safe p s) (init p hal) s) : PlacementInv s := by
  refine hs.invariant ?_ (inv_step hw hhal)
  exact ⟨by simp [init], by simp [init, ranges]⟩

/-- A new entry is apart from everything entered before, in its own map because
the place was free and in the other maps because maps do not overlap. -/
theorem entryAdd_disjoint {p : Platform w σ} (hw : 32 ≤ w) {s : Common w σ}
    (hinv : PlacementInv s) {mapName : Option CString} {start size : BitVec w}
    {align : BitVec 32} (hsize : 0 < size.toNat) (halign : AlignOk align)
    (hsafe : ∀ i map, entryMap s mapName start size = some i → s.maps[i]? = some map →
      PlaceSafe map mapName start size align)
    {e : MapEnt w} (he : (entryAdd p s mapName start size align).2 = some e)
    {map : SysMap w} (hmap : map ∈ s.maps) {f : MapEnt w} (hf : f ∈ map.entries) :
    e.Disjoint f := by
  rcases entryAdd_cases p s mapName start size align with h |
    ⟨i, own, place, hi, hown, hplace, hres, -⟩
  · rw [h] at he
    cases he
  · rw [hres] at he
    cases he
    have hpack := hinv.packed own (List.mem_of_getElem? hown)
    have hfit := entryPlace_fits hw hpack hsize halign (hsafe i own hi hown) hplace
    have hend : (place + size).toNat = place.toNat + size.toNat :=
      BitVec.toNat_add_of_lt (by have := own.end_.isLt; have := hfit.2.1; omega)
    simp only [MapEnt.Disjoint, BitVec.le_def, hend]
    obtain ⟨j, hj, rfl⟩ := List.mem_iff_getElem.mp hmap
    obtain ⟨hi', rfl⟩ := List.getElem?_eq_some_iff.mp hown
    by_cases hij : i = j
    · subst hij
      exact hfit.2.2 f hf
    · obtain ⟨hlo, -, hhi⟩ := Packed.mem (hinv.packed _ hmap) hf
      have hapart := List.pairwise_iff_getElem.mp hinv.apart
      simp only [ranges, List.getElem_map, List.length_map] at hapart
      simp only [MapEnt.lo, MapEnt.hi] at hlo hhi
      have hfl := hfit.1
      have hfu := hfit.2.1
      cases Nat.lt_or_gt_of_ne hij with
      | inl hlt =>
        have := hapart i j hi' hj hlt
        rw [BitVec.le_def, BitVec.le_def] at this
        omega
      | inr hlt =>
        have := hapart j i hj hi' hlt
        rw [BitVec.le_def, BitVec.le_def] at this
        omega

/-- A 32-bit target whose HAL reserves no memory and accepts every map. -/
def flat32 : Platform 32 Unit where
  heapBase := 0x00100000
  heapLimit := 0x00105000
  sizeofSyspage := 64
  sizeofMap := 36
  sizeofMapent := 20
  sizeofProg := 36
  sizePage := 0x1000
  memoryGetNextEntry := fun _ _ _ => none
  memoryAddMap := fun _ _ _ _ _ => ((), 0)
  heapLimit_room := by decide
  sizeofMapent_pos := by decide

theorem flat32_lawful : HalLawful flat32 := by
  intro hal start end_ e h
  cases h

def addMap4k : Call 32 := .mapAdd ⟨[0x6d], by decide⟩ 0x1000 0x2000 ⟨[], by decide⟩

def addPage : Call 32 := .entryAdd (some ⟨[0x6d], by decide⟩) (-1) 0x1000 0x1000

theorem addPage_safe : addPage.Safe flat32 (step flat32 (init flat32 ()) addMap4k) := by
  intro i map hi hmap
  have hi0 : i = 0 := by
    have h : entryMap (step flat32 (init flat32 ()) addMap4k) (some ⟨[0x6d], by decide⟩) (-1)
        0x1000 = some 0 := by decide
    exact (Option.some.inj (h.symm.trans hi)).symm
  subst hi0
  have h : (step flat32 (init flat32 ()) addMap4k).maps[0]? =
      some ⟨⟨[0x6d], by decide⟩, 0x1000, 0x2000, ⟨false, false, false, false, false, false⟩,
        0, []⟩ := by decide
  obtain rfl := Option.some.inj (h.symm.trans hmap)
  refine ⟨⟨show (0x1000 : BitVec 32) ≤ alignAddr 0x1000 0x1000#32 by decide, by simp⟩, Or.inl ⟨0x1000, Or.inr (by decide), ?_⟩⟩
  refine ⟨by decide, by decide, by simp⟩

theorem addMap4k_wellFormed : addMap4k.WellFormed flat32 :=
  show (0x1000 : BitVec 32) < 0x2000 by decide

/-- A best fit of two pages in a map of one: an empty map is never measured. -/
def addTwoPages : Call 32 := .entryAdd (some ⟨[0x6d], by decide⟩) (-1) 0x2000 0x1000

end Plo.Syspage
