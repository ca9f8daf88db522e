import Plo.Cmds.AppLoad

/-!
Runs of the commands that build the list of programs. A load that fails changes
nothing exactly when it cannot fail after its entry is there; in a run of such
loads, between maps, entries and programs of other callers, every program of the
list is complete and stands for an entry of its own.
-/
namespace Plo.Cmds
open Syspage
variable {w : Nat} {σ : Type}

theorem appLoad_kept_iff (p : Platform w σ) (s : Common w σ) (src : Source w) (req : AppReq w) :
    Kept s (appLoad p s src req) ↔ req.Safe p s src := by
  cases appLoad_cases p s src req with
  | refused h state =>
      refine ⟨fun _ => h, fun _ res _ _ => ?_⟩
      rw [state]
      exact ⟨rfl, rfl⟩
  | waiting h res =>
      refine ⟨fun _ => h, fun _ res' hres' => ?_⟩
      rw [res] at hres'
      cases hres'
  | failed h res hres neg entry entries =>
      refine ⟨fun hkept => ?_, fun hsafe => absurd hsafe h⟩
      have hlen := entries.length_eq
      rw [allEntries, (hkept res hres neg).2, ← allEntries, List.length_cons] at hlen
      omega
  | loaded h hres =>
      refine ⟨fun _ => h, fun _ res hres' hneg => ?_⟩
      rw [hres] at hres'
      cases hres'
      exact absurd hneg (by decide)

def progRange (prog : Prog w) : Option (BitVec w) × Option (BitVec w) := (prog.start, prog.end_)

def entryRange (entry : MapEnt w) : Option (BitVec w) × Option (BitVec w) :=
  (some entry.start, some entry.end_)

/-- Every program has its maps, and the ranges of the programs are those of
entries, one entry for each. -/
structure ProgsComplete (s : Common w σ) : Prop where
  complete : ∀ prog ∈ s.progs, Complete prog
  own : List.Subperm (s.progs.map progRange) ((allEntries s).map entryRange)

theorem ProgsComplete.grow {s s' : Common w σ} (h : ProgsComplete s) (hprogs : s'.progs = s.progs)
    (hentries : List.Subperm (allEntries s) (allEntries s')) : ProgsComplete s' := by
  refine ⟨by rw [hprogs]; exact h.complete, ?_⟩
  obtain ⟨l, hperm, hsub⟩ := hentries
  rw [hprogs]
  exact h.own.trans ⟨l.map entryRange, hperm.map entryRange, hsub.map entryRange⟩

theorem ProgsComplete.add {s s' : Common w σ} (h : ProgsComplete s) {prog : Prog w}
    {entry : MapEnt w} (hprogs : s'.progs = s.progs ++ [prog]) (hcomplete : Complete prog)
    (hrange : progRange prog = entryRange entry)
    (hentries : (allEntries s').Perm (entry :: allEntries s)) : ProgsComplete s' := by
  refine ⟨fun prog' hmem => ?_, ?_⟩
  · rw [hprogs] at hmem
    cases List.mem_append.mp hmem with
    | inl hold => exact h.complete prog' hold
    | inr hnew => exact List.mem_singleton.mp hnew ▸ hcomplete
  · have hperm := hentries.map entryRange
    rw [hprogs, List.map_append, List.map_singleton, hrange]
    rw [List.map_cons] at hperm
    refine ((List.perm_append_singleton _ _).subperm.trans ?_).trans hperm.symm.subperm
    exact (List.subperm_cons _).mpr h.own

inductive Cmd (w : Nat) where
  | call (c : Call w)
  | app (src : Source w) (req : AppReq w)
  | blob (src : Source w) (req : BlobReq w)

def Cmd.step (p : Platform w σ) (s : Common w σ) : Cmd w → Common w σ
  | .call c => Syspage.step p s c
  | .app src req => (appLoad p s src req).1
  | .blob src req => (blobLoad p s src req).1

def Cmd.Safe (p : Platform w σ) (s : Common w σ) : Cmd w → Prop
  | .app src req => req.Safe p s src
  | _ => True

theorem complete_appLoad {p : Platform w σ} {s : Common w σ} (h : ProgsComplete s)
    {src : Source w} {req : AppReq w} (hsafe : req.Safe p s src) :
    ProgsComplete (appLoad p s src req).1 := by
  cases appLoad_cases p s src req with
  | refused _ state =>
      rw [state]
      exact h
  | waiting _ _ progs entry entries =>
      exact h.grow progs ((List.sublist_cons_self _ _).subperm.trans entries.symm.subperm)
  | failed hno => exact absurd hsafe hno
  | loaded _ _ prog progs complete entry start end_ entries =>
      exact h.add progs complete (by rw [progRange, start, end_, entryRange]) entries

theorem complete_progAdd {p : Platform w σ} {s s₁ s₂ : Common w σ} (h : ProgsComplete s)
    {entry : MapEnt w} (hprogs : s₁.progs = s.progs)
    (hentries : (allEntries s₁).Perm (entry :: allEntries s)) {argv : CString} {flags : BitVec 32}
    {prog : Prog w} (hadd : progAdd p s₁ argv flags = (s₂, some prog)) :
    ProgsComplete (setProg s₂ { prog with
      imaps := none, imapSz := some 0, dmaps := none, dmapSz := some 0,
      start := some entry.start, end_ := some entry.end_ }) := by
  cases progAdd_cases p s₁ argv flags with
  | inl hnone =>
      rw [hadd] at hnone
      cases hnone.2.1
  | inr hsome =>
      obtain ⟨s', prog', _, hmaps, heq⟩ := hsome
      rw [hadd] at heq
      cases heq
      have hlinked : s₁.progs ++ [prog] = s.progs ++ [prog] := by rw [hprogs]
      refine h.add (setProg_progs hlinked _) ⟨⟨0, rfl, ?_⟩, ⟨0, rfl, ?_⟩⟩ rfl ?_
      · simp
      · simp
      · rw [allEntries, setProg, hmaps]
        exact hentries

theorem complete_progAdd_none {p : Platform w σ} {s s₁ s₂ : Common w σ} (h : ProgsComplete s)
    {entry : MapEnt w} (hprogs : s₁.progs = s.progs)
    (hentries : (allEntries s₁).Perm (entry :: allEntries s)) {argv : CString} {flags : BitVec 32}
    (hadd : progAdd p s₁ argv flags = (s₂, none)) : ProgsComplete s₂ := by
  cases progAdd_cases p s₁ argv flags with
  | inl hnone =>
      obtain ⟨_, _, hmaps, hprogs₂⟩ := hnone
      rw [hadd] at hmaps hprogs₂
      refine h.grow (hprogs₂.trans hprogs) ?_
      rw [allEntries, allEntries, hmaps]
      exact (List.sublist_cons_self _ _).subperm.trans hentries.symm.subperm
  | inr hsome =>
      obtain ⟨_, _, _, _, heq⟩ := hsome
      rw [hadd] at heq
      cases heq

theorem complete_entryAdd {p : Platform w σ} {s : Common w σ} (h : ProgsComplete s)
    (mapName : Option CString) (start size : BitVec w) (align : BitVec 32) :
    ProgsComplete (entryAdd p s mapName start size align).1 := by
  cases hadd : entryAdd p s mapName start size align with
  | mk s₁ added =>
      cases added with
      | none =>
          cases entryAdd_cases p s mapName start size align with
          | inl hnone =>
              rw [hadd] at hnone
              cases hnone
              exact h
          | inr hsome =>
              obtain ⟨_, _, _, _, _, _, hentry, _⟩ := hsome
              rw [hadd] at hentry
              cases hentry
      | some entry =>
          obtain ⟨hprogs, _, hperm, _⟩ := entryAdd_some hadd
          exact h.grow hprogs ((List.sublist_cons_self _ _).subperm.trans hperm.symm.subperm)

theorem complete_mapAdd {p : Platform w σ} {s : Common w σ} (h : ProgsComplete s)
    (name attr : CString) (start end_ : BitVec w) :
    ProgsComplete (mapAdd p s name start end_ attr).1 := by
  cases mapAdd_cases p s name attr start end_ with
  | inl hrefused =>
      obtain ⟨s', res, _, heq, hmaps, hprogs⟩ := hrefused
      rw [heq]
      refine h.grow hprogs ?_
      rw [allEntries, allEntries, hmaps]
  | inr hlinked =>
      obtain ⟨s', map, _, hmaps, hprogs, _⟩ := hlinked
      refine h.grow hprogs ?_
      rw [allEntries, allEntries, hmaps, List.flatMap_append]
      exact (List.sublist_append_left _ _).subperm

theorem complete_progAllocateAndAdd {p : Platform w σ} {s : Common w σ} (h : ProgsComplete s)
    (map : Option CString) (size : BitVec w) (argv : CString) (flags : BitVec 32)
    (allowOverwrite : Int) :
    ProgsComplete (progAllocateAndAdd p s map size argv flags allowOverwrite).1 := by
  have hentry := complete_entryAdd (p := p) h map (-1) size p.sizePage
  simp only [progAllocateAndAdd]
  split
  · exact h
  · cases hadd : entryAdd p s map (-1) size p.sizePage with
    | mk s₁ added =>
        rw [hadd] at hentry
        cases added with
        | none => exact hentry
        | some entry =>
            obtain ⟨hprogs, _, hperm, _⟩ := entryAdd_some hadd
            cases hprog : progAdd p s₁ argv flags with
            | mk s₂ prog =>
                cases prog with
                | none =>
                    simp only [hprog]
                    exact complete_progAdd_none h hprogs hperm hprog
                | some prog =>
                    simp only [hprog]
                    exact complete_progAdd h hprogs hperm hprog

theorem complete_blobLoad {p : Platform w σ} {s : Common w σ} (h : ProgsComplete s)
    (src : Source w) (req : BlobReq w) : ProgsComplete (blobLoad p s src req).1 := by
  simp only [blobLoad]
  split
  · exact h
  · next place _ =>
    have hentry := complete_entryAdd (p := p) h place.mapName place.start req.size p.sizePage
    cases loadEntry_cases p s src req.size place _ with
    | refused _ hout => exact hout ▸ h
    | waiting hadd _ hout =>
        rw [hadd] at hentry
        exact hout ▸ hentry
    | failed hadd _ _ hout =>
        rw [hadd] at hentry
        exact hout ▸ hentry
    | @copied s₁ entry hadd _ hout =>
        obtain ⟨hprogs, _, hperm, _⟩ := entryAdd_some hadd
        rw [hout]
        cases hprog : progAdd p s₁ req.name 0 with
        | mk s₂ prog =>
            cases prog with
            | none => exact complete_progAdd_none h hprogs hperm hprog
            | some prog => exact complete_progAdd h hprogs hperm hprog

theorem complete_step {p : Platform w σ} {s : Common w σ} (h : ProgsComplete s) {cmd : Cmd w}
    (hsafe : cmd.Safe p s) : ProgsComplete (cmd.step p s) := by
  cases cmd with
  | call c =>
      cases c with
      | mapAdd name start end_ attr => exact complete_mapAdd h name attr start end_
      | entryAdd mapName start size align => exact complete_entryAdd h mapName start size align
      | progAllocateAndAdd map size argv flags allowOverwrite =>
          exact complete_progAllocateAndAdd h map size argv flags allowOverwrite
  | app src req => exact complete_appLoad h hsafe
  | blob src req => exact complete_blobLoad h src req

def mappedFile : Source 32 where
  header := .ok [0x7f, 'E'.toUInt8, 'L'.toUInt8, 'F'.toUInt8]
  stack := fun _ => 0
  aliasAddr := none
  map := fun _ _ _ memaddr _ _ => (dev_isMappable, memaddr)
  reads := []
  header_neg := by
    intro res h
    cases h
  reads_neg := by
    intro res h
    cases h

/-- A program in the map `m` with its data in a map of the given letter. -/
def loadInto (letter : UInt8) (h : letter ≠ 0) : AppReq 32 where
  size := 0x100
  imaps := .ofBuffer [0x6d]
  dmaps := ⟨[letter], fun hmem => h (List.mem_singleton.mp hmem).symm⟩
  argv := .ofBuffer [0x61]
  flags := 0
  imaps_fit := by decide
  dmaps_fit := Nat.lt_of_le_of_lt (Nat.le_refl 2) (by decide)

end Plo.Cmds
