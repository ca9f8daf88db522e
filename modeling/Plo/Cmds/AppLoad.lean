import Mathlib.Data.List.Flatten
import Plo.Cmds.App
import Plo.Syspage.Placement

/-!
What a load that fails leaves behind. The entry is allocated first, the program
is linked second and the names of its maps are resolved last, and nothing is
taken back; so a failure is harmless exactly when it comes before the entry.
In runs whose loads cannot fail later, every program of the list is complete.
-/
namespace Plo.Cmds
open Syspage
variable {w : Nat} {σ : Type}

section Names

/-- Every name of a list is the name of a map. -/
def Resolved (s : Common w σ) (maps : CString) : Prop :=
  ∀ name ∈ maps.bytes.splitOn mapSep, ∃ map ∈ s.maps, map.name.bytes = name

instance (s : Common w σ) (maps : CString) : Decidable (Resolved s maps) :=
  inferInstanceAs (Decidable (∀ name ∈ _, ∃ map ∈ _, _))

theorem mapNameResolve_eq_none_iff (s : Common w σ) (name : CString) :
    mapNameResolve s name = none ↔ ¬∃ map ∈ s.maps, map.name.bytes = name.bytes := by
  have hname (map : SysMap w) : name = map.name ↔ map.name.bytes = name.bytes := by
    constructor
    · rintro rfl
      rfl
    · intro h
      cases name
      cases hmap : map.name with
      | mk bytes noNul =>
          rw [hmap] at h
          cases h
          rfl
  simp only [mapNameResolve, mapGet, Option.map_eq_none_iff, List.find?_eq_none, decide_eq_true_eq,
    hname, not_exists, not_and]

theorem mapsAdd2Prog_cons (s : Common w σ) (nb : Nat) {name : List UInt8} (h : 0 ∉ name)
    (rest : List UInt8) :
    ((∃ map ∈ s.maps, map.name.bytes = name) ∧ ∃ id, mapsAdd2Prog s (nb + 1) (name ++ 0 :: rest) =
      (id :: (mapsAdd2Prog s nb rest).1, (mapsAdd2Prog s nb rest).2)) ∨
    ((¬∃ map ∈ s.maps, map.name.bytes = name) ∧
      mapsAdd2Prog s (nb + 1) (name ++ 0 :: rest) = ([], -EINVAL)) := by
  have hname := ofBuffer_append h rest
  have hdrop : (name ++ 0 :: rest).drop (name.length + 1) = rest := by
    rw [List.drop_append, List.drop_of_length_le (Nat.le_succ _), Nat.add_sub_cancel_left]
    rfl
  have hresolve := mapNameResolve_eq_none_iff s (CString.ofBuffer (name ++ 0 :: rest))
  rw [hname] at hresolve
  simp only [mapsAdd2Prog, hname, hdrop]
  cases hid : mapNameResolve s (CString.ofBuffer (name ++ 0 :: rest)) with
  | none => exact Or.inr ⟨hresolve.mp hid, rfl⟩
  | some id =>
      refine Or.inl ⟨?_, id, rfl⟩
      by_contra hno
      rw [hresolve.mpr hno] at hid
      cases hid

theorem map_mapSep {l : List UInt8} (hl : mapSep ∉ l) :
    l.map (fun c => if c = mapSep then 0 else c) = l := by
  conv => rhs; rw [← List.map_id l]
  refine List.map_congr_left fun c hc => if_neg ?_
  rintro rfl
  exact hl hc

/-- The buffer of a list of names: a NUL stands behind the first. -/
theorem map_mapSep_append {first : List UInt8} (hfirst : mapSep ∉ first) (rest : List UInt8) :
    (first ++ mapSep :: rest).map (fun c => if c = mapSep then 0 else c) ++ [0] =
      first ++ 0 :: (rest.map (fun c => if c = mapSep then 0 else c) ++ [0]) := by
  rw [List.map_append, map_mapSep hfirst, List.map_cons, if_pos rfl, List.append_assoc]
  rfl

/-- Resolving the names one by one succeeds exactly when each is there, and then
stores an id for each. -/
theorem mapsAdd2Prog_buffer (s : Common w σ) (nb : Nat) {bytes : List UInt8} (hnul : 0 ∉ bytes)
    (hnb : bytes.count mapSep = nb) :
    let r := mapsAdd2Prog s (nb + 1) (bytes.map (fun c => if c = mapSep then 0 else c) ++ [0])
    (r.2 = EOK ∧ r.1.length = nb + 1 ∧
      ∀ name ∈ bytes.splitOn mapSep, ∃ map ∈ s.maps, map.name.bytes = name) ∨
    (r.2 < 0 ∧ ¬∀ name ∈ bytes.splitOn mapSep, ∃ map ∈ s.maps, map.name.bytes = name) := by
  induction nb generalizing bytes with
  | zero =>
      have hsep : mapSep ∉ bytes := List.count_eq_zero.mp hnb
      rw [map_mapSep hsep, List.splitOn_eq_singleton hsep]
      cases mapsAdd2Prog_cons s 0 hnul [] with
      | inl h =>
          obtain ⟨hmap, id, heq⟩ := h
          rw [heq]
          refine Or.inl ⟨rfl, rfl, fun name hname => ?_⟩
          rw [List.mem_singleton.mp hname]
          exact hmap
      | inr h =>
          rw [h.2]
          exact Or.inr ⟨by decide, fun hall => h.1 (hall bytes List.mem_cons_self)⟩
  | succ nb ih =>
      have hmem : mapSep ∈ bytes := List.count_pos_iff.mp (by omega)
      obtain ⟨first, rest, rfl, hfirst⟩ := List.eq_append_cons_of_mem hmem
      have hnulFirst : 0 ∉ first := fun h => hnul (List.mem_append_left _ h)
      have hnulRest : 0 ∉ rest := fun h =>
        hnul (List.mem_append_right _ (List.mem_cons_of_mem _ h))
      have hcount : rest.count mapSep = nb := by
        rw [List.count_append, List.count_cons_self, List.count_eq_zero.mpr hfirst] at hnb
        omega
      rw [map_mapSep_append hfirst, List.splitOn_append_cons_self_of_not_mem hfirst]
      cases mapsAdd2Prog_cons s (nb + 1) hnulFirst
          (rest.map (fun c => if c = mapSep then 0 else c) ++ [0]) with
      | inl h =>
          obtain ⟨hmap, id, heq⟩ := h
          rw [heq]
          cases ih hnulRest hcount with
          | inl hok =>
              refine Or.inl ⟨hok.1, congrArg (· + 1) hok.2.1, fun name hname => ?_⟩
              cases List.mem_cons.mp hname with
              | inl hhead => exact hhead ▸ hmap
              | inr htail => exact hok.2.2 name htail
          | inr hfail =>
              refine Or.inr ⟨hfail.1, fun hall => hfail.2 fun name hname => ?_⟩
              exact hall name (List.mem_cons_of_mem _ hname)
      | inr h =>
          rw [h.2]
          exact Or.inr ⟨by decide, fun hall => h.1 (hall first List.mem_cons_self)⟩

theorem mapsAdd2Prog_cases (s : Common w σ) (maps : CString) :
    ((mapsAdd2Prog s (mapsParse maps).2 (mapsParse maps).1).2 = EOK ∧
      (mapsAdd2Prog s (mapsParse maps).2 (mapsParse maps).1).1.length = (mapsParse maps).2 ∧
      Resolved s maps) ∨
    ((mapsAdd2Prog s (mapsParse maps).2 (mapsParse maps).1).2 < 0 ∧ ¬Resolved s maps) :=
  mapsAdd2Prog_buffer s _ maps.noNul rfl

theorem Resolved.congr {s s' : Common w σ} {maps : CString}
    (h : s'.maps.map (·.name) = s.maps.map (·.name)) : Resolved s' maps ↔ Resolved s maps := by
  have hnames (t : Common w σ) (name : List UInt8) :
      (∃ map ∈ t.maps, map.name.bytes = name) ↔
        ∃ n ∈ t.maps.map (·.name), n.bytes = name := by
    simp only [List.mem_map, exists_exists_and_eq_and]
  simp only [Resolved, hnames, h]

end Names

section Link

structure Complete (prog : Prog w) : Prop where
  imaps : ∃ sz, prog.imapSz = some sz ∧ (prog.imaps.getD []).length = sz.toNat
  dmaps : ∃ sz, prog.dmapSz = some sz ∧ (prog.dmaps.getD []).length = sz.toNat

/-- A program can be linked and given its maps. -/
structure Linkable (p : Platform w σ) (s : Common w σ) (req : AppReq w) : Prop where
  room : allocAll p s (progBlocks p req.argv req.flags ++ [req.imapSz, req.dmapSz]) ≠ none
  imaps : Resolved s req.imaps
  dmaps : Resolved s req.dmaps

theorem allocAll_eq_none_congr {p : Platform w σ} {s s' : Common w σ}
    (h : s'.heapTop = s.heapTop) (sizes : List (BitVec w)) :
    allocAll p s' sizes = none ↔ allocAll p s sizes = none := by
  induction sizes generalizing s s' with
  | nil => simp [allocAll]
  | cons size sizes ih =>
      by_cases hfull : alignAddr (s.heapTop + size) (8 : BitVec w) ≥ p.heapLimit
      · simp only [allocAll, alloc, h, if_pos hfull]
      · simp only [allocAll, alloc, h, if_neg hfull]
        exact ih rfl

theorem allocAll_cons_eq_none {p : Platform w σ} {s s₁ s' : Common w σ} {size a : BitVec w}
    (h : alloc p s size = some (a, s₁)) (htop : s'.heapTop = s₁.heapTop)
    (sizes : List (BitVec w)) :
    allocAll p s (size :: sizes) = none ↔ allocAll p s' sizes = none := by
  simp only [allocAll, h]
  exact (allocAll_eq_none_congr htop sizes).symm

theorem toNat_mapNb {maps : CString} (h : maps.bytes.length + 1 < 2 ^ w) :
    (BitVec.ofNat w (mapsParse maps).2).toNat = (mapsParse maps).2 := by
  have hle : maps.bytes.count mapSep ≤ maps.bytes.length := List.count_le_length
  rw [BitVec.toNat_ofNat, Nat.mod_eq_of_lt]
  simp only [mapsParse]
  omega

theorem length_cells {ids : List (BitVec 8)} {n : Nat} (h : ids.length = n) :
    (cells n ids).length = n := by
  simp [cells, h]

/-- The outcome of giving a program its maps, under the condition for success. -/
structure Linked (s : Common w σ) (progs : List (Prog w)) (entry : MapEnt w) (ok : Prop)
    (out : Common w σ × Int) : Prop where
  maps : out.1.maps = s.maps
  cases : (ok ∧ out.2 = EOK ∧ ∃ prog, out.1.progs = progs ++ [prog] ∧ Complete prog ∧
      prog.start = some entry.start ∧ prog.end_ = some entry.end_) ∨ (¬ok ∧ out.2 < 0)

theorem Linked.fail {s s' : Common w σ} {progs : List (Prog w)} {entry : MapEnt w} {ok : Prop}
    {res : Int} (hmaps : s'.maps = s.maps) (hok : ¬ok) (hres : res < 0) :
    Linked s progs entry ok (s', res) := ⟨hmaps, Or.inr ⟨hok, hres⟩⟩

theorem Linked.congr {s s' : Common w σ} {progs : List (Prog w)} {entry : MapEnt w}
    {ok ok' : Prop} {out : Common w σ × Int} (h : Linked s' progs entry ok' out)
    (hmaps : s'.maps = s.maps) (hok : ok ↔ ok') : Linked s progs entry ok out :=
  ⟨h.maps.trans hmaps, by rw [hok]; exact h.cases⟩

theorem appNames_linked {s : Common w σ} (req : AppReq w) (entry : MapEnt w)
    {progs : List (Prog w)} {prog₀ : Prog w} (hs : s.progs = progs ++ [prog₀]) (prog : Prog w) :
    Linked s progs entry (Resolved s req.imaps ∧ Resolved s req.dmaps)
      (appNames s req entry prog) := by
  have himaps := mapsAdd2Prog_cases s req.imaps
  have hdmaps := mapsAdd2Prog_cases s req.dmaps
  simp only [appNames]
  generalize mapsAdd2Prog s (mapsParse req.imaps).2 (mapsParse req.imaps).1 = rI at himaps ⊢
  generalize mapsAdd2Prog s (mapsParse req.dmaps).2 (mapsParse req.dmaps).1 = rD at hdmaps ⊢
  cases himaps with
  | inr hfail =>
      rw [if_pos hfail.1]
      exact .fail rfl (fun h => hfail.2 h.1) hfail.1
  | inl hI =>
      rw [if_neg (by rw [hI.1]; decide)]
      cases hdmaps with
      | inr hfail =>
          rw [if_pos hfail.1]
          exact .fail rfl (fun h => hfail.2 h.2) hfail.1
      | inl hD =>
          rw [if_neg (by rw [hD.1]; decide)]
          refine ⟨rfl, Or.inl ⟨⟨hI.2.2, hD.2.2⟩, rfl, _, setProg_progs hs _, ⟨?_, ?_⟩, rfl, rfl⟩⟩
          · exact ⟨req.imapSz, rfl, length_cells (hI.2.1.trans (toNat_mapNb req.imaps_fit).symm)⟩
          · exact ⟨req.dmapSz, rfl, length_cells (hD.2.1.trans (toNat_mapNb req.dmaps_fit).symm)⟩

theorem appMaps_linked (p : Platform w σ) {s : Common w σ} (req : AppReq w) (entry : MapEnt w)
    {progs : List (Prog w)} {prog₀ : Prog w} (hs : s.progs = progs ++ [prog₀]) (prog : Prog w) :
    Linked s progs entry
      (allocAll p s [req.imapSz, req.dmapSz] ≠ none ∧ Resolved s req.imaps ∧ Resolved s req.dmaps)
      (appMaps p s req entry prog) := by
  simp only [appMaps]
  cases h₁ : alloc p s req.imapSz with
  | none =>
      have hroom : allocAll p s [req.imapSz, req.dmapSz] = none := by simp only [allocAll, h₁]
      exact .fail rfl (fun h => h.1 hroom) (by decide)
  | some r₁ =>
      obtain ⟨_, s₁⟩ := r₁
      obtain ⟨hmaps₁, hprogs₁, _⟩ := alloc_lists h₁
      have hs₁ := setProg_progs (hprogs₁.trans hs)
        { prog with imaps := some (cells req.imapSz.toNat []) }
      have hroom := allocAll_cons_eq_none h₁
        (rfl : (setProg s₁ { prog with imaps := some (cells req.imapSz.toNat []) }).heapTop = _)
        [req.dmapSz]
      cases h₂ : alloc p (setProg s₁ { prog with imaps := some (cells req.imapSz.toNat []) })
          req.dmapSz with
      | none =>
          have hnone : allocAll p s [req.imapSz, req.dmapSz] = none := by
            rw [hroom]
            simp only [allocAll, h₂]
          simp only [h₂]
          exact .fail hmaps₁ (fun h => h.1 hnone) (by decide)
      | some r₂ =>
          obtain ⟨_, s₂⟩ := r₂
          obtain ⟨hmaps₂, hprogs₂, _⟩ := alloc_lists h₂
          have hmaps : s₂.maps = s.maps := hmaps₂.trans hmaps₁
          simp only [h₂]
          refine (appNames_linked req entry (hprogs₂.trans hs₁) _).congr hmaps ?_
          rw [Resolved.congr (congrArg _ hmaps), Resolved.congr (congrArg _ hmaps), ne_eq, hroom]
          simp only [allocAll, h₂, reduceCtorEq, not_false_eq_true, true_and]

theorem appLink_linked (p : Platform w σ) (s : Common w σ) (req : AppReq w) (entry : MapEnt w) :
    Linked s s.progs entry (Linkable p s req) (appLink p s req entry) := by
  have hblocks := allocAll_append (p := p) (s := s) (progBlocks p req.argv req.flags)
    [req.imapSz, req.dmapSz]
  simp only [appLink]
  cases progAdd_cases p s req.argv req.flags with
  | inl h =>
      obtain ⟨hroom, hnone, hmaps, _⟩ := h
      rw [hroom, Option.bind_none] at hblocks
      generalize progAdd p s req.argv req.flags = out at hnone hmaps ⊢
      obtain ⟨s', prog⟩ := out
      cases hnone
      exact .fail hmaps (fun h => h.room hblocks) (by decide)
  | inr h =>
      obtain ⟨s', prog, hroom, hmaps', heq⟩ := h
      rw [hroom, Option.bind_some] at hblocks
      generalize ht : ({ s' with progs := s.progs ++ [prog] } : Common w σ) = t at heq
      have hprogs : t.progs = s.progs ++ [prog] := by rw [← ht]
      have hmaps : t.maps = s.maps := by rw [← ht]; exact hmaps'
      have htop : t.heapTop = s'.heapTop := by rw [← ht]
      rw [heq]
      refine (appMaps_linked p req entry hprogs prog).congr hmaps ?_
      rw [Resolved.congr (congrArg _ hmaps), Resolved.congr (congrArg _ hmaps), ne_eq,
        allocAll_eq_none_congr htop, ← hblocks]
      exact ⟨fun h => ⟨h.room, h.imaps, h.dmaps⟩, fun h => ⟨h.1, h.2.1, h.2.2⟩⟩

end Link

section Entry

def allEntries (s : Common w σ) : List (MapEnt w) := s.maps.flatMap (·.entries)

theorem allEntries_set {s s' : Common w σ} {i : Nat} {map : SysMap w} (h : s.maps[i]? = some map)
    (entry : MapEnt w)
    (hs' : s'.maps = s.maps.set i { map with entries := sortedInsert map.entries entry }) :
    (allEntries s').Perm (entry :: allEntries s) := by
  obtain ⟨hi, hget⟩ := List.getElem?_eq_some_iff.mp h
  have hold : allEntries s = (s.maps.take i).flatMap (·.entries) ++
      (map.entries ++ (s.maps.drop (i + 1)).flatMap (·.entries)) := by
    have hsplit : s.maps = s.maps.take i ++ map :: s.maps.drop (i + 1) := by
      rw [← hget, List.getElem_cons_drop, List.take_append_drop]
    conv => lhs; rw [allEntries, hsplit]
    rw [List.flatMap_append, List.flatMap_cons]
  have hnew : allEntries s' = (s.maps.take i).flatMap (·.entries) ++
      (sortedInsert map.entries entry ++ (s.maps.drop (i + 1)).flatMap (·.entries)) := by
    rw [allEntries, hs', List.set_eq_take_append_cons_drop, if_pos hi, List.flatMap_append,
      List.flatMap_cons]
  rw [hnew, hold]
  calc (s.maps.take i).flatMap (·.entries) ++
        (sortedInsert map.entries entry ++ (s.maps.drop (i + 1)).flatMap (·.entries))
    List.Perm _ ((s.maps.take i).flatMap (·.entries) ++
        (entry :: (map.entries ++ (s.maps.drop (i + 1)).flatMap (·.entries)))) :=
      ((List.perm_orderedInsert _ entry map.entries).append_right _).append_left _
    List.Perm _ _ := List.perm_middle

theorem entryAdd_some {p : Platform w σ} {s s' : Common w σ} {mapName : Option CString}
    {start size : BitVec w} {align : BitVec 32} {entry : MapEnt w}
    (h : entryAdd p s mapName start size align = (s', some entry)) :
    s'.progs = s.progs ∧ entry.end_ - entry.start = size ∧
      (allEntries s').Perm (entry :: allEntries s) ∧
      s'.maps.map (·.name) = s.maps.map (·.name) ∧
      ∃ a s₁, alloc p s p.sizeofMapent = some (a, s₁) ∧ s'.heapTop = s₁.heapTop := by
  simp only [entryAdd] at h
  split at h
  · cases h
  · next i _ =>
    split at h
    · cases h
    · next map hmap =>
      split at h
      · cases h
      · next place _ =>
        split at h
        · cases h
        · next a s₁ halloc =>
          obtain ⟨hmaps, hprogs, _⟩ := alloc_lists halloc
          cases h
          refine ⟨hprogs, ?_, allEntries_set hmap _ ?_, ?_, a, s₁, halloc, rfl⟩
          · rw [BitVec.add_comm, BitVec.add_sub_cancel]
          · rw [hmaps]
          · simp only [hmaps]
            exact map_set_same hmap rfl

end Entry

section Load

def copyResult (src : Source w) (size : BitVec w) (place : Place w) : Option Int :=
  if place.copy then (cp2ent size 0 src.reads).2 else some EOK

theorem cp2ent_result {sz offs : BitVec w} {reads : List ReadResult}
    (hneg : ∀ res, .error res ∈ reads → res < 0) {res : Int}
    (h : (cp2ent sz offs reads).2 = some res) : res = EOK ∨ res < 0 := by
  induction reads generalizing offs with
  | nil =>
      simp only [cp2ent] at h
      split at h <;> cases h
      exact Or.inl rfl
  | cons read reads ih =>
      simp only [cp2ent] at h
      split at h
      · cases read with
        | error e =>
            cases h
            exact Or.inr (hneg res List.mem_cons_self)
        | ok buff => exact ih (fun e he => hneg e (List.mem_cons_of_mem _ he)) h
      · cases h
        exact Or.inl rfl

theorem copyResult_cases {src : Source w} {size : BitVec w} {place : Place w} {res : Int}
    (h : copyResult src size place = some res) : res = EOK ∨ res < 0 := by
  simp only [copyResult] at h
  split at h
  · exact cp2ent_result src.reads_neg h
  · cases h
    exact Or.inl rfl

/-- The heap holds the entry and the program, and every name leads to a map. -/
structure AppReq.Backed (p : Platform w σ) (s : Common w σ) (req : AppReq w) : Prop where
  room : allocAll p s (p.sizeofMapent ::
    (progBlocks p req.argv req.flags ++ [req.imapSz, req.dmapSz])) ≠ none
  imaps : Resolved s req.imaps
  dmaps : Resolved s req.dmaps

/-- Nothing fails any more once the entry can be added: no read while the file is
copied, and if the copying ends, then neither the heap nor the name of a map. -/
def AppReq.Safe (p : Platform w σ) (s : Common w σ) (src : Source w) (req : AppReq w) : Prop :=
  ∀ place, appPlace s src req = .ok place →
    (entryAdd p s place.mapName place.start req.size p.sizePage).2 ≠ none →
    ∀ res, copyResult src req.size place = some res → 0 ≤ res ∧ req.Backed p s

/-- A failed call leaves the list of programs and the maps with their entries as
they were. -/
def Kept (s : Common w σ) (out : Common w σ × Option Int) : Prop :=
  ∀ res, out.2 = some res → res < 0 → out.1.progs = s.progs ∧ out.1.maps = s.maps

/-- The ways a load can go: refused, waiting, failed with the entry left behind,
or done. -/
inductive LoadCase (s : Common w σ) (safe : Prop) (out : Common w σ × Option Int) : Prop
  | refused (h : safe) (state : out.1 = s)
  | waiting (h : safe) (res : out.2 = none) (progs : out.1.progs = s.progs) (entry : MapEnt w)
      (entries : (allEntries out.1).Perm (entry :: allEntries s))
  | failed (h : ¬safe) (res : Int) (hres : out.2 = some res) (neg : res < 0) (entry : MapEnt w)
      (entries : (allEntries out.1).Perm (entry :: allEntries s))
  | loaded (h : safe) (hres : out.2 = some EOK) (prog : Prog w)
      (progs : out.1.progs = s.progs ++ [prog]) (complete : Complete prog) (entry : MapEnt w)
      (start : prog.start = some entry.start) (end_ : prog.end_ = some entry.end_)
      (entries : (allEntries out.1).Perm (entry :: allEntries s))

theorem linkable_iff_backed {p : Platform w σ} {s s₁ s' : Common w σ} {a : BitVec w}
    (req : AppReq w) (halloc : alloc p s p.sizeofMapent = some (a, s₁))
    (htop : s'.heapTop = s₁.heapTop) (hnames : s'.maps.map (·.name) = s.maps.map (·.name)) :
    Linkable p s' req ↔ req.Backed p s := by
  have hroom := allocAll_cons_eq_none halloc htop
    (progBlocks p req.argv req.flags ++ [req.imapSz, req.dmapSz])
  constructor
  · intro h
    exact ⟨hroom.not.mpr h.room, (Resolved.congr hnames).mp h.imaps,
      (Resolved.congr hnames).mp h.dmaps⟩
  · intro h
    exact ⟨hroom.not.mp h.room, (Resolved.congr hnames).mpr h.imaps,
      (Resolved.congr hnames).mpr h.dmaps⟩

/-- The ways the entry of a file can go, before the file is linked: no entry, a read
that does not end, a read that fails, or the whole file. -/
inductive EntryCase (p : Platform w σ) (s : Common w σ) (src : Source w) (size : BitVec w)
    (place : Place w) (link : Common w σ → MapEnt w → Common w σ × Option Int)
    (out : Common w σ × Option Int) : Prop
  | refused (hadd : (entryAdd p s place.mapName place.start size p.sizePage).2 = none)
      (hout : out = (s, some (-ENOMEM)))
  | waiting {s₁ : Common w σ} {entry : MapEnt w}
      (hadd : entryAdd p s place.mapName place.start size p.sizePage = (s₁, some entry))
      (hcopy : copyResult src size place = none) (hout : out = (s₁, none))
  | failed {s₁ : Common w σ} {entry : MapEnt w} {res : Int}
      (hadd : entryAdd p s place.mapName place.start size p.sizePage = (s₁, some entry))
      (hcopy : copyResult src size place = some res) (hneg : res < 0) (hout : out = (s₁, some res))
  | copied {s₁ : Common w σ} {entry : MapEnt w}
      (hadd : entryAdd p s place.mapName place.start size p.sizePage = (s₁, some entry))
      (hcopy : copyResult src size place = some EOK) (hout : out = link s₁ entry)

theorem loadEntry_cases (p : Platform w σ) (s : Common w σ) (src : Source w) (size : BitVec w)
    (place : Place w) (link : Common w σ → MapEnt w → Common w σ × Option Int) :
    EntryCase p s src size place link (loadEntry p s src size place link) := by
  cases hadd : entryAdd p s place.mapName place.start size p.sizePage with
  | mk s₁ added =>
      cases added with
      | none =>
          have hstate : s₁ = s := by
            cases entryAdd_cases p s place.mapName place.start size p.sizePage with
            | inl hnone =>
                rw [hadd] at hnone
                cases hnone
                rfl
            | inr hsome =>
                obtain ⟨_, _, _, _, _, _, hentry, _⟩ := hsome
                rw [hadd] at hentry
                cases hentry
          exact .refused (by rw [hadd]) (by simp only [loadEntry, hadd, hstate])
      | some entry =>
          have hread : (if place.copy then (cp2ent (entry.end_ - entry.start) 0 src.reads).2
              else some EOK) = copyResult src size place := by
            rw [(entryAdd_some hadd).2.1]
            rfl
          cases hcopy : copyResult src size place with
          | none => exact .waiting hadd hcopy (by simp only [loadEntry, hadd, hread, hcopy])
          | some res =>
              cases copyResult_cases hcopy with
              | inl hok =>
                  subst hok
                  exact .copied hadd hcopy (by simp only [loadEntry, hadd, hread, hcopy]; rfl)
              | inr hneg =>
                  exact .failed hadd hcopy hneg
                    (by simp only [loadEntry, hadd, hread, hcopy, if_pos hneg])

theorem appLoad_cases (p : Platform w σ) (s : Common w σ) (src : Source w) (req : AppReq w) :
    LoadCase s (req.Safe p s src) (appLoad p s src req) := by
  simp only [appLoad]
  cases hplace : appPlace s src req with
  | error res =>
      refine .refused (fun place h => ?_) rfl
      rw [hplace] at h
      cases h
  | ok place =>
      have hsafe : req.Safe p s src ↔
          ((entryAdd p s place.mapName place.start req.size p.sizePage).2 ≠ none →
            ∀ res, copyResult src req.size place = some res → 0 ≤ res ∧ req.Backed p s) := by
        refine ⟨fun h => h place hplace, fun h place' hplace' => ?_⟩
        rw [hplace] at hplace'
        cases hplace'
        exact h
      dsimp only
      cases loadEntry_cases p s src req.size place fun s entry =>
          ((appLink p s req entry).1, some (appLink p s req entry).2) with
      | refused hadd hout =>
          refine .refused (hsafe.mpr fun h => absurd hadd h) ?_
          rw [hout]
      | @waiting s₁ entry hadd hcopy hout =>
          obtain ⟨hprogs, -, hperm, -⟩ := entryAdd_some hadd
          rw [hout]
          refine .waiting (hsafe.mpr fun _ res h => ?_) rfl hprogs entry hperm
          rw [hcopy] at h
          cases h
      | @failed s₁ entry res hadd hcopy hneg hout =>
          obtain ⟨-, -, hperm, -⟩ := entryAdd_some hadd
          rw [hout]
          refine .failed (fun h => ?_) res rfl hneg entry hperm
          have hnonneg := (hsafe.mp h (by rw [hadd]; exact Option.some_ne_none entry) res hcopy).1
          exact absurd hnonneg (Int.not_le.mpr hneg)
      | @copied s₁ entry hadd hcopy hout =>
          obtain ⟨hprogs, -, hperm, hnames, a, s₂, halloc, htop⟩ := entryAdd_some hadd
          have hlink := linkable_iff_backed req halloc htop hnames
          have hlinked := appLink_linked p s₁ req entry
          have hperm' : (allEntries (appLink p s₁ req entry).1).Perm (entry :: allEntries s) := by
            rw [allEntries, hlinked.maps]
            exact hperm
          rw [hout]
          cases hlinked.cases with
          | inl h =>
              obtain ⟨hok, hEOK, prog, hprog, hcomplete, hstart, hend⟩ := h
              refine .loaded (hsafe.mpr fun _ res h => ?_) (congrArg some hEOK) prog
                (hprogs ▸ hprog) hcomplete entry hstart hend hperm'
              rw [hcopy] at h
              cases h
              exact ⟨Int.le_refl 0, hlink.mp hok⟩
          | inr h =>
              refine .failed (fun hs => h.1 ?_) _ rfl h.2 entry hperm'
              exact hlink.mpr (hsafe.mp hs (by rw [hadd]; exact Option.some_ne_none entry) EOK hcopy).2

end Load

end Plo.Cmds
