import Plo.Syspage.Entries

/-!
The program list. `syspage_progAdd` links a program before its caller fills in
the address range and the map lists, so a caller that fails later leaves a
program behind whose fields were never assigned.
-/
namespace Plo.Syspage
variable {w : Nat} {σ : Type}

def flagSyspageExec : BitVec 32 := 0x01
def flagSyspageNoCopy : BitVec 32 := 0x02

/-- `[X] + argv`: a leading mark tells the kernel to start the program. -/
def progArgv (argv : CString) (flags : BitVec 32) : CString :=
  if flags &&& flagSyspageExec ≠ 0 then
    ⟨'X'.toUInt8 :: argv.bytes, List.not_mem_cons_of_ne_of_not_mem (by decide) argv.noNul⟩
  else argv

/-- The state with the program linked, and the program; or no program. -/
def progAdd (p : Platform w σ) (s : Common w σ) (argv : CString) (flags : BitVec 32) :
    Common w σ × Option (Prog w) :=
  match alloc p s p.sizeofProg with
  | none => (s, none)
  | some (_, s) =>
    let stored := progArgv argv flags
    match alloc p s (BitVec.ofNat w (stored.bytes.length + 1)) with
    | none => (s, none)
    | some (_, s) =>
      let prog : Prog w := ⟨stored, none, none, none, none, none, none⟩
      ({ s with progs := s.progs ++ [prog] }, some prog)

/-- An assignment through the pointer to the program linked last. -/
def setProg (s : Common w σ) (prog : Prog w) : Common w σ :=
  { s with progs := s.progs.dropLast ++ [prog] }

theorem setProg_progs {s : Common w σ} {progs : List (Prog w)} {prog : Prog w}
    (h : s.progs = progs ++ [prog]) (prog' : Prog w) :
    (setProg s prog').progs = progs ++ [prog'] := by
  simp only [setProg, h, List.dropLast_concat]

/-- The name under which a program was registered, without the leading mark. -/
def progName (prog : Prog w) : List UInt8 :=
  match prog.argv.bytes with
  | c :: cs => if c = 'X'.toUInt8 then cs else c :: cs
  | [] => []

def progAllocateAndAdd (p : Platform w σ) (s : Common w σ) (map : Option CString)
    (size : BitVec w) (argv : CString) (flags : BitVec 32) (allowOverwrite : Int) :
    Common w σ × Option (BitVec w) :=
  if allowOverwrite = 0 ∧ s.progs.any (fun iter => argv.bytes = progName iter) then (s, none)
  else
    match entryAdd p s map (-1) size p.sizePage with
    | (s, none) => (s, none)
    | (s, some entry) =>
      match progAdd p s argv flags with
      | (s, none) => (s, none)
      | (s, some prog) =>
        (setProg s { prog with
          imaps := none, imapSz := some 0, dmaps := none, dmapSz := some 0,
          start := some entry.start, end_ := some entry.end_ }, some entry.start)

def progBlocks (p : Platform w σ) (argv : CString) (flags : BitVec 32) : List (BitVec w) :=
  [p.sizeofProg, BitVec.ofNat w ((progArgv argv flags).bytes.length + 1)]

theorem progAdd_cases (p : Platform w σ) (s : Common w σ) (argv : CString) (flags : BitVec 32) :
    (allocAll p s (progBlocks p argv flags) = none ∧
      (progAdd p s argv flags).2 = none ∧ (progAdd p s argv flags).1.maps = s.maps ∧
      (progAdd p s argv flags).1.progs = s.progs) ∨
    ∃ s' prog, allocAll p s (progBlocks p argv flags) = some s' ∧ s'.maps = s.maps ∧
      progAdd p s argv flags = ({ s' with progs := s.progs ++ [prog] }, some prog) := by
  simp only [progAdd, progBlocks, allocAll]
  cases h₁ : alloc p s p.sizeofProg with
  | none => exact Or.inl ⟨rfl, rfl, rfl, rfl⟩
  | some r₁ =>
      obtain ⟨_, s₁⟩ := r₁
      obtain ⟨hmaps₁, hprogs₁, _⟩ := alloc_lists h₁
      cases h₂ : alloc p s₁ (BitVec.ofNat w ((progArgv argv flags).bytes.length + 1)) with
      | none =>
          simp only [h₂]
          exact Or.inl ⟨trivial, trivial, hmaps₁, hprogs₁⟩
      | some r₂ =>
          obtain ⟨_, s₂⟩ := r₂
          obtain ⟨hmaps₂, hprogs₂, _⟩ := alloc_lists h₂
          simp only [h₂]
          refine Or.inr ⟨s₂, ⟨progArgv argv flags, none, none, none, none, none, none⟩, rfl,
            hmaps₂.trans hmaps₁, ?_⟩
          rw [hprogs₂.trans hprogs₁]

theorem progAdd_maps (p : Platform w σ) (s : Common w σ) (argv : CString) (flags : BitVec 32) :
    (progAdd p s argv flags).1.maps = s.maps := by
  cases progAdd_cases p s argv flags with
  | inl h => exact h.2.2.1
  | inr h =>
      obtain ⟨s', prog, _, hmaps, heq⟩ := h
      rw [heq]
      exact hmaps

theorem progAllocateAndAdd_maps (p : Platform w σ) (s : Common w σ) (map : Option CString)
    (size : BitVec w) (argv : CString) (flags : BitVec 32) (allowOverwrite : Int) :
    (progAllocateAndAdd p s map size argv flags allowOverwrite).1.maps = s.maps ∨
      (progAllocateAndAdd p s map size argv flags allowOverwrite).1.maps =
        (entryAdd p s map (-1) size p.sizePage).1.maps := by
  simp only [progAllocateAndAdd]
  split
  · exact Or.inl rfl
  · refine Or.inr ?_
    rcases entryAdd p s map (-1) size p.sizePage with ⟨s₁, _ | entry⟩
    · rfl
    · have hmaps := progAdd_maps p s₁ argv flags
      rcases hprog : progAdd p s₁ argv flags with ⟨s₂, _ | prog⟩ <;> rw [hprog] at hmaps
      · simpa [hprog] using hmaps
      · simpa [hprog, setProg] using hmaps

end Plo.Syspage
