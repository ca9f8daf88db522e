import Plo.Syspage.Placement
import Plo.Syspage.Progs

/-!
Names of programs. A program that is to be started is stored with a mark before
its name, and the mark is taken off by its look alone; so a name that begins with
the same character is confused with another one, according to the flags it was
registered with.
-/
namespace Plo.Syspage
variable {w : Nat} {σ : Type}

/-- The loop of `syspage_progAllocateAndAdd` over the programs. -/
def nameTaken (s : Common w σ) (argv : CString) : Bool :=
  s.progs.any fun iter => argv.bytes = progName iter

theorem progAllocateAndAdd_taken (p : Platform w σ) (s : Common w σ) (map : Option CString)
    (size : BitVec w) (argv : CString) (flags : BitVec 32) :
    progAllocateAndAdd p s map size argv flags 0 =
      if nameTaken s argv then (s, none) else progAllocateAndAdd p s map size argv flags 1 := by
  have hone : ¬ ((1 : Int) = 0 ∧ nameTaken s argv) := fun h => absurd h.1 (by decide)
  by_cases htaken : nameTaken s argv = true
  · rw [if_pos htaken, progAllocateAndAdd]
    exact if_pos ⟨rfl, htaken⟩
  · rw [if_neg htaken, progAllocateAndAdd, progAllocateAndAdd]
    exact (if_neg fun h => htaken h.2).trans (if_neg hone).symm

section Calls

/-- What a program was registered with. -/
structure Given where
  argv : CString
  flags : BitVec 32

def Given.exec (g : Given) : Prop := g.flags &&& flagSyspageExec ≠ 0

instance (g : Given) : Decidable g.exec := inferInstanceAs (Decidable (_ ≠ _))

inductive ProgCall (w : Nat)
  | add (g : Given)
  | allocateAndAdd (map : Option CString) (size : BitVec w) (g : Given) (allowOverwrite : Int)

/-- The system page, with what the programs of its list were given. -/
structure ProgLog (w : Nat) (σ : Type) where
  sys : Common w σ
  given : List Given

/-- A call is noted when it registers a program. -/
def ProgLog.call (p : Platform w σ) (l : ProgLog w σ) : ProgCall w → ProgLog w σ
  | .add g =>
    let r := progAdd p l.sys g.argv g.flags
    ⟨r.1, if r.2.isSome then l.given ++ [g] else l.given⟩
  | .allocateAndAdd map size g allowOverwrite =>
    let r := progAllocateAndAdd p l.sys map size g.argv g.flags allowOverwrite
    ⟨r.1, if r.2.isSome then l.given ++ [g] else l.given⟩

/-- The programs are stored in the order they were given in. -/
def ProgLog.Noted (l : ProgLog w σ) : Prop :=
  l.sys.progs.map (·.argv) = l.given.map fun g => progArgv g.argv g.flags

theorem entryAdd_progs (p : Platform w σ) (s : Common w σ) (mapName : Option CString)
    (start size : BitVec w) (align : BitVec 32) :
    (entryAdd p s mapName start size align).1.progs = s.progs := by
  simp only [entryAdd]
  split
  · rfl
  · split
    · rfl
    · split
      · rfl
      · split
        · rfl
        · next halloc => exact (alloc_lists halloc).2.1

/-- One program more at the end of the list, or none. -/
theorem progAdd_progs (p : Platform w σ) (s : Common w σ) (argv : CString) (flags : BitVec 32) :
    (∃ s', progAdd p s argv flags = (s', none) ∧ s'.progs = s.progs) ∨
      ∃ s' prog, progAdd p s argv flags = (s', some prog) ∧ prog.argv = progArgv argv flags ∧
        s'.progs = s.progs ++ [prog] := by
  simp only [progAdd]
  cases h₁ : alloc p s p.sizeofProg with
  | none => exact Or.inl ⟨s, rfl, rfl⟩
  | some r₁ =>
      have hprogs₁ := (alloc_lists h₁).2.1
      simp only
      cases h₂ : alloc p r₁.2 (BitVec.ofNat w ((progArgv argv flags).bytes.length + 1)) with
      | none => exact Or.inl ⟨r₁.2, rfl, hprogs₁⟩
      | some r₂ =>
          have hprogs₂ := (alloc_lists h₂).2.1
          exact Or.inr ⟨_, _, rfl, rfl, by rw [hprogs₂, hprogs₁]⟩

theorem progAllocateAndAdd_progs (p : Platform w σ) (s : Common w σ) (map : Option CString)
    (size : BitVec w) (argv : CString) (flags : BitVec 32) (allowOverwrite : Int) :
    (∃ s', progAllocateAndAdd p s map size argv flags allowOverwrite = (s', none) ∧
        s'.progs = s.progs) ∨
      ∃ s' start prog,
        progAllocateAndAdd p s map size argv flags allowOverwrite = (s', some start) ∧
          s'.progs = s.progs ++ [prog] ∧ prog.argv = progArgv argv flags := by
  have hentry := entryAdd_progs p s map (-1) size p.sizePage
  simp only [progAllocateAndAdd]
  split
  · exact Or.inl ⟨s, rfl, rfl⟩
  · generalize entryAdd p s map (-1) size p.sizePage = r at hentry
    obtain ⟨s₁, _ | entry⟩ := r
    · exact Or.inl ⟨s₁, rfl, hentry⟩
    · rw [← hentry]
      rcases progAdd_progs p s₁ argv flags with ⟨s₂, heq, hprogs⟩ | ⟨s₂, prog, heq, hargv, hprogs⟩
      · simp only [heq]
        exact Or.inl ⟨s₂, rfl, hprogs⟩
      · simp only [heq]
        exact Or.inr ⟨_, _, _, rfl, setProg_progs hprogs _, hargv⟩

theorem ProgLog.Noted.call {l : ProgLog w σ} (h : l.Noted) (p : Platform w σ) (c : ProgCall w) :
    (l.call p c).Noted := by
  have hone {s : Common w σ} {g : Given} {prog : Prog w}
      (hargv : prog.argv = progArgv g.argv g.flags) (hprogs : s.progs = l.sys.progs ++ [prog]) :
      ProgLog.Noted ⟨s, l.given ++ [g]⟩ := by
    rw [Noted] at h ⊢
    rw [hprogs, List.map_append, List.map_append, h, List.map_singleton, List.map_singleton, hargv]
  have hnone {s : Common w σ} (hprogs : s.progs = l.sys.progs) :
      ProgLog.Noted ⟨s, l.given⟩ := by
    rw [Noted] at h ⊢
    rw [hprogs, h]
  cases c with
  | add g =>
      rcases progAdd_progs p l.sys g.argv g.flags with
        ⟨s', heq, hprogs⟩ | ⟨s', prog, heq, hargv, hprogs⟩
      · simp only [ProgLog.call, heq]
        exact hnone hprogs
      · simp only [ProgLog.call, heq]
        exact hone hargv hprogs
  | allocateAndAdd map size g allowOverwrite =>
      rcases progAllocateAndAdd_progs p l.sys map size g.argv g.flags allowOverwrite with
        ⟨s', heq, hprogs⟩ | ⟨s', start, prog, heq, hprogs, hargv⟩
      · simp only [ProgLog.call, heq]
        exact hnone hprogs
      · simp only [ProgLog.call, heq]
        exact hone hargv hprogs

theorem ProgLog.Noted.calls {l : ProgLog w σ} (h : l.Noted) (p : Platform w σ)
    (calls : List (ProgCall w)) : (calls.foldl (ProgLog.call p) l).Noted := by
  induction calls generalizing l with
  | nil => exact h
  | cons c calls ih => exact ih (h.call p c)

end Calls

section Names

/-- A program not to be started whose name is the given one behind a mark. -/
def Shadowed (given : List Given) (argv : CString) : Prop :=
  ∃ g ∈ given, ¬ g.exec ∧ g.argv.bytes = 'X'.toUInt8 :: argv.bytes

/-- A name given before does not begin with the mark, unless it was also given to a
program to be started or is hidden behind a mark; one not given before is not
hidden behind a mark. -/
def NamesClear (given : List Given) (argv : CString) : Prop :=
  if ∃ g ∈ given, g.argv = argv then
    argv.bytes.head? ≠ some 'X'.toUInt8 ∨ (∃ g ∈ given, g.exec ∧ g.argv = argv) ∨
      Shadowed given argv
  else ¬ Shadowed given argv

theorem progName_stored (prog : Prog w) {g : Given} (h : prog.argv = progArgv g.argv g.flags)
    (argv : CString) :
    argv.bytes = progName prog ↔
      (g.argv = argv ∧ (g.exec ∨ argv.bytes.head? ≠ some 'X'.toUInt8)) ∨
        (¬ g.exec ∧ g.argv.bytes = 'X'.toUInt8 :: argv.bytes) := by
  have hsame : g.argv = argv ↔ argv.bytes = g.argv.bytes :=
    CString.ext_iff.trans eq_comm
  simp only [progName, h, progArgv]
  by_cases hexec : g.exec
  · -- the mark that was put before the name is taken off again
    have hflag : g.flags &&& flagSyspageExec ≠ 0 := hexec
    rw [if_pos hflag]
    simp only [if_true, hexec, true_or, and_true, not_true_eq_false, false_and, or_false, hsame]
  · have hflag : ¬ g.flags &&& flagSyspageExec ≠ 0 := hexec
    rw [if_neg hflag]
    simp only [hexec, false_or, not_false_eq_true, true_and, hsame]
    cases hbytes : g.argv.bytes with
    | nil => cases argv.bytes <;> simp
    | cons c cs =>
        by_cases hc : c = 'X'.toUInt8
        · subst hc
          simp only [if_true, List.cons.injEq, true_and]
          constructor
          · intro heq
            exact Or.inr heq.symm
          · rintro (⟨heq, hhead⟩ | heq)
            · rw [heq] at hhead
              exact absurd rfl hhead
            · exact heq.symm
        · have hcons : ¬ (c :: cs = 'X'.toUInt8 :: argv.bytes) :=
            fun heq => hc (List.cons.inj heq).1
          simp only [if_neg hc, hcons, or_false]
          constructor
          · intro heq
            refine ⟨heq, ?_⟩
            rw [heq, List.head?_cons]
            exact fun heq => hc (Option.some.inj heq)
          · exact And.left

theorem nameTaken_iff {l : ProgLog w σ} (h : l.Noted) (argv : CString) :
    nameTaken l.sys argv = true ↔
      (∃ g ∈ l.given, g.argv = argv ∧ (g.exec ∨ argv.bytes.head? ≠ some 'X'.toUInt8)) ∨
        Shadowed l.given argv := by
  rw [ProgLog.Noted] at h
  simp only [nameTaken, List.any_eq_true, decide_eq_true_eq, Shadowed, ← exists_or, ← and_or_left]
  constructor
  · rintro ⟨prog, hprog, heq⟩
    obtain ⟨g, hg, hstored⟩ := List.mem_map.mp (h ▸ List.mem_map_of_mem hprog)
    exact ⟨g, hg, (progName_stored prog hstored.symm argv).mp heq⟩
  · rintro ⟨g, hg, hname⟩
    obtain ⟨prog, hprog, hstored⟩ := List.mem_map.mp (h.symm ▸ List.mem_map_of_mem hg)
    exact ⟨prog, hprog, (progName_stored prog hstored argv).mpr hname⟩

end Names

/-- After any registrations a call that may not overwrite refuses the names that are
taken and goes on with the others; and the names taken are those some program was
given, unless the name or another one begins with the mark. -/
theorem nameTaken_right_iff (p : Platform w σ) (s : Common w σ) (hs : s.progs = [])
    (calls : List (ProgCall w)) (argv : CString) :
    let l := calls.foldl (ProgLog.call p) ⟨s, []⟩
    (∀ map size flags, progAllocateAndAdd p l.sys map size argv flags 0 =
        if nameTaken l.sys argv then (l.sys, none)
        else progAllocateAndAdd p l.sys map size argv flags 1) ∧
      ((nameTaken l.sys argv = true ↔ ∃ g ∈ l.given, g.argv = argv) ↔
        NamesClear l.given argv) := by
  intro l
  refine ⟨fun map size flags => progAllocateAndAdd_taken p l.sys map size argv flags, ?_⟩
  have hnoted : l.Noted := ProgLog.Noted.calls (by rw [ProgLog.Noted, hs]; rfl) p calls
  rw [nameTaken_iff hnoted, NamesClear]
  split
  · next hgiven =>
    rw [iff_true_right hgiven]
    constructor
    · rintro (⟨g, hg, rfl, hexec | hhead⟩ | hshadow)
      · exact Or.inr (Or.inl ⟨g, hg, hexec, rfl⟩)
      · exact Or.inl hhead
      · exact Or.inr (Or.inr hshadow)
    · rintro (hhead | ⟨g, hg, hexec, heq⟩ | hshadow)
      · obtain ⟨g, hg, heq⟩ := hgiven
        exact Or.inl ⟨g, hg, heq, Or.inr hhead⟩
      · exact Or.inl ⟨g, hg, heq, Or.inl hexec⟩
      · exact Or.inr hshadow
  · next hgiven =>
    rw [iff_false_right hgiven]
    constructor
    · exact fun h hshadow => h (Or.inr hshadow)
    · rintro hclear (⟨g, hg, heq, -⟩ | hshadow)
      · exact hgiven ⟨g, hg, heq⟩
      · exact hclear hshadow

def addProg (name : List UInt8) (flags : BitVec 32) : ProgCall 32 :=
  .add ⟨.ofBuffer name, flags⟩

/-- The programs `psh` to be started and `X` not. -/
theorem nameTaken_right_iff_two :
    let l := [addProg [0x70, 0x73, 0x68] 1, addProg [0x58] 0].foldl
      (ProgLog.call flat32) ⟨init flat32 (), []⟩
    (nameTaken l.sys (.ofBuffer [0x70, 0x73, 0x68]) = true ↔
        ∃ g ∈ l.given, g.argv = .ofBuffer [0x70, 0x73, 0x68]) ↔
      NamesClear l.given (.ofBuffer [0x70, 0x73, 0x68]) :=
  (nameTaken_right_iff flat32 (init flat32 ()) rfl
    [addProg [0x70, 0x73, 0x68] 1, addProg [0x58] 0] (.ofBuffer [0x70, 0x73, 0x68])).2

/-- The name `Xa` of a program not to be started keeps the name `a` out, and does
not keep out itself. -/
theorem marked_name_confused :
    ¬ ∀ (p : Platform 32 Unit) (s : Common 32 Unit), s.progs = [] →
      ∀ (calls : List (ProgCall 32)) (argv : CString),
        let l := calls.foldl (ProgLog.call p) ⟨s, []⟩
        (nameTaken l.sys argv = true ↔ ∃ g ∈ l.given, g.argv = argv) := by
  intro h
  have hall := h flat32 (init flat32 ()) rfl [addProg [0x58, 0x61] 0] (.ofBuffer [0x61])
  exact absurd (hall.mp (by decide)) (by decide)

end Plo.Syspage
