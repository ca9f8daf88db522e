import Plo.Base.Since
import Plo.Hal.DtbTokens

/-!
The state of the parser, by the tokens before it. The parser has no path to the node it is in, so
that a node's end, whichever it is, may take it to another state. The number of CPUs is right in
every tree. Which properties are taken for those of a CPU or of the interrupt controller is said
here by the order of the tokens.
-/
namespace Plo.Hal
open Lib
open Sbi

/-- The depth behind a token. -/
def nextDepth (d : Nat) : FdtToken → Nat
  | .begin _ => d + 1
  | .prop _ => d
  | .endNode => d - 1

def depthAfter (l : List FdtToken) : Nat := l.foldl nextDepth 0

section Names
variable (d : Nat) (name : NodeName)

def IsRoot : Prop := d = 0 ∧ name.bytes = []

def IsMemory : Prop := d = 1 ∧ name.StartsWith "memory@".toUTF8.toList

def IsCpu : Prop := d = 2 ∧ name.StartsWith "cpu@".toUTF8.toList

def IsCpuController : Prop := name.StartsWith "interrupt-controller".toUTF8.toList

def IsSoc : Prop := d = 1 ∧ name.StartsWith "soc".toUTF8.toList

def IsSocController : Prop :=
  name.StartsWith "interrupt-controller@".toUTF8.toList ∨ name.StartsWith "plic@".toUTF8.toList

/-- The beginning of the node takes the parser out of a node `soc`. -/
def LeavesSoc : Prop := IsRoot d name ∨ IsMemory d name ∨ IsCpu d name

end Names

/-- The token is the beginning of a node of this kind. -/
def OnBegin (p : Nat → NodeName → Prop) (l : List FdtToken) : FdtToken → Prop
  | .begin name => p (depthAfter l) name
  | _ => False

/-- A node `interrupt-controller` began since the CPU, and no node has ended behind it. -/
def InCpuController : List FdtToken → Prop :=
  Since (OnBegin fun _ => IsCpuController) fun l t => t ≠ .endNode ∧ ¬OnBegin IsCpu l t

/-- A CPU began, and behind it only its interrupt controllers have ended. -/
def InCpu : List FdtToken → Prop :=
  Since (OnBegin IsCpu) fun l t => t = .endNode → InCpuController l

/-- A node `soc` began, and nothing behind it has taken the parser out of it. -/
def InSoc : List FdtToken → Prop := Since (OnBegin IsSoc) fun l t => ¬OnBegin LeavesSoc l t

/-- An interrupt controller began there, and no node has ended behind it. -/
def InSocController : List FdtToken → Prop :=
  Since (fun l t => InSoc l ∧ OnBegin (fun _ => IsSocController) l t) fun l t =>
    t ≠ .endNode ∧ ¬OnBegin LeavesSoc l t ∧ ¬OnBegin IsSoc l t

section Snoc
variable {l : List FdtToken} {name : NodeName} {nameoff : BitVec 32}

@[simp] theorem onBegin_begin {p : Nat → NodeName → Prop} :
    OnBegin p l (.begin name) ↔ p (depthAfter l) name := Iff.rfl

@[simp] theorem not_onBegin_prop {p : Nat → NodeName → Prop} : ¬OnBegin p l (.prop nameoff) := id

@[simp] theorem not_onBegin_endNode {p : Nat → NodeName → Prop} : ¬OnBegin p l .endNode := id

@[simp] theorem depthAfter_nil : depthAfter [] = 0 := rfl

@[simp] theorem depthAfter_begin : depthAfter (l ++ [.begin name]) = depthAfter l + 1 := by
  rw [depthAfter, List.foldl_append]
  rfl

@[simp] theorem depthAfter_prop : depthAfter (l ++ [.prop nameoff]) = depthAfter l := by
  rw [depthAfter, List.foldl_append]
  rfl

@[simp] theorem depthAfter_endNode : depthAfter (l ++ [.endNode]) = depthAfter l - 1 := by
  rw [depthAfter, List.foldl_append]
  rfl

@[simp] theorem not_inCpuController_nil : ¬InCpuController [] := not_since_nil

@[simp] theorem inCpuController_begin : InCpuController (l ++ [.begin name]) ↔
    IsCpuController name ∨ InCpuController l ∧ ¬IsCpu (depthAfter l) name := by
  simp [InCpuController, since_snoc]

@[simp] theorem inCpuController_prop :
    InCpuController (l ++ [.prop nameoff]) ↔ InCpuController l := by
  simp [InCpuController, since_snoc]

@[simp] theorem not_inCpuController_endNode : ¬InCpuController (l ++ [.endNode]) := by
  simp [InCpuController, since_snoc]

@[simp] theorem not_inCpu_nil : ¬InCpu [] := not_since_nil

@[simp] theorem inCpu_begin :
    InCpu (l ++ [.begin name]) ↔ IsCpu (depthAfter l) name ∨ InCpu l := by
  simp [InCpu, since_snoc]

@[simp] theorem inCpu_prop : InCpu (l ++ [.prop nameoff]) ↔ InCpu l := by
  simp [InCpu, since_snoc]

@[simp] theorem inCpu_endNode : InCpu (l ++ [.endNode]) ↔ InCpu l ∧ InCpuController l := by
  simp [InCpu, since_snoc]

@[simp] theorem not_inSoc_nil : ¬InSoc [] := not_since_nil

@[simp] theorem inSoc_begin : InSoc (l ++ [.begin name]) ↔
    IsSoc (depthAfter l) name ∨ InSoc l ∧ ¬LeavesSoc (depthAfter l) name := by
  simp [InSoc, since_snoc]

@[simp] theorem inSoc_prop : InSoc (l ++ [.prop nameoff]) ↔ InSoc l := by
  simp [InSoc, since_snoc]

@[simp] theorem inSoc_endNode : InSoc (l ++ [.endNode]) ↔ InSoc l := by
  simp [InSoc, since_snoc]

@[simp] theorem not_inSocController_nil : ¬InSocController [] := not_since_nil

@[simp] theorem inSocController_begin : InSocController (l ++ [.begin name]) ↔
    InSoc l ∧ IsSocController name ∨ InSocController l ∧
      ¬LeavesSoc (depthAfter l) name ∧ ¬IsSoc (depthAfter l) name := by
  simp [InSocController, since_snoc]

@[simp] theorem inSocController_prop :
    InSocController (l ++ [.prop nameoff]) ↔ InSocController l := by
  simp [InSocController, since_snoc]

@[simp] theorem not_inSocController_endNode : ¬InSocController (l ++ [.endNode]) := by
  simp [InSocController, since_snoc]

end Snoc

section Begin
variable {d : Nat} {name : NodeName} {state : DtbState}

theorem head_of_startsWith {pre : List UInt8} {c : UInt8} (h : name.StartsWith pre = true)
    (hc : pre.head? = some c) : name.bytes.head? = some c := by
  obtain ⟨rest, hrest⟩ := of_decide_eq_true h
  rw [← hrest, List.head?_append, hc, Option.some_or]

/-- The first letters of the names that are looked for. -/
theorem nameHeads :
    "memory@".toUTF8.toList.head? = some 109 ∧ "cpu@".toUTF8.toList.head? = some 99 ∧
    "interrupt-controller".toUTF8.toList.head? = some 105 ∧
    "soc".toUTF8.toList.head? = some 115 ∧
    "interrupt-controller@".toUTF8.toList.head? = some 105 ∧
    "plic@".toUTF8.toList.head? = some 112 := by decide +kernel

theorem IsMemory.first (h : IsMemory d name) : name.bytes.head? = some 109 :=
  head_of_startsWith h.2 nameHeads.1

theorem IsCpu.first (h : IsCpu d name) : name.bytes.head? = some 99 :=
  head_of_startsWith h.2 nameHeads.2.1

theorem IsCpuController.first (h : IsCpuController name) : name.bytes.head? = some 105 :=
  head_of_startsWith h nameHeads.2.2.1

theorem IsSoc.first (h : IsSoc d name) : name.bytes.head? = some 115 :=
  head_of_startsWith h.2 nameHeads.2.2.2.1

theorem IsSocController.first (h : IsSocController name) :
    name.bytes.head? = some 105 ∨ name.bytes.head? = some 112 :=
  Or.imp (fun h => head_of_startsWith h nameHeads.2.2.2.2.1)
    (fun h => head_of_startsWith h nameHeads.2.2.2.2.2) h

theorem IsCpu.not_controller (h : IsCpu d name) : ¬IsCpuController name := by
  intro hctl
  have hfirst := h.first.symm.trans hctl.first
  exact absurd hfirst (by decide)

theorem IsSoc.not_cpuController (h : IsSoc d name) : ¬IsCpuController name := by
  intro hctl
  have hfirst := h.first.symm.trans hctl.first
  exact absurd hfirst (by decide)

theorem IsSoc.not_socController (h : IsSoc d name) : ¬IsSocController name := by
  intro hctl
  rcases hctl.first with hfirst | hfirst
  · exact absurd (h.first.symm.trans hfirst) (by decide)
  · exact absurd (h.first.symm.trans hfirst) (by decide)

theorem IsSoc.not_leaves (h : IsSoc d name) : ¬LeavesSoc d name := by
  rintro (hroot | hmemory | hcpu)
  · exact absurd (h.1.symm.trans hroot.1) (by decide)
  · exact absurd (h.first.symm.trans hmemory.first) (by decide)
  · exact absurd (h.1.symm.trans hcpu.1) (by decide)

theorem IsSocController.not_leaves (h : IsSocController name) : ¬LeavesSoc d name := by
  have hne {c : UInt8} (hc : name.bytes.head? = some c) (hi : some c ≠ some 105)
      (hp : some c ≠ some 112) : False := by
    rcases h.first with hfirst | hfirst
    · exact hi (hc.symm.trans hfirst)
    · exact hp (hc.symm.trans hfirst)
  rintro (hroot | hmemory | hcpu)
  · rcases h.first with hfirst | hfirst
    · rw [hroot.2] at hfirst
      cases hfirst
    · rw [hroot.2] at hfirst
      cases hfirst
  · exact hne hmemory.first (by decide) (by decide)
  · exact hne hcpu.first (by decide) (by decide)

/-- The state behind the beginning of a node. -/
theorem beginState_cases (d : Nat) (name : NodeName) (state : DtbState) :
    IsRoot d name ∧ beginState name d state = .system ∨
    IsMemory d name ∧ beginState name d state = .memory ∨
    IsCpu d name ∧ beginState name d state = .cpu ∨
    ¬LeavesSoc d name ∧
      (state = .cpu ∧ IsCpuController name ∧
          beginState name d state = .cpuInterruptController ∨
        ¬(state = .cpu ∧ IsCpuController name) ∧
          (IsSoc d name ∧ beginState name d state = .soc ∨
            ¬IsSoc d name ∧
              (state = .soc ∧ IsSocController name ∧
                  beginState name d state = .socInterruptController ∨
                ¬(state = .soc ∧ IsSocController name) ∧
                  beginState name d state = state))) := by
  by_cases hroot : d = 0 ∧ name.bytes = []
  · exact Or.inl ⟨hroot, by rw [beginState, if_pos hroot]⟩
  by_cases hmemory : d = 1 ∧ name.StartsWith "memory@".toUTF8.toList
  · exact Or.inr (Or.inl ⟨hmemory, by rw [beginState, if_neg hroot, if_pos hmemory]⟩)
  by_cases hcpu : d = 2 ∧ name.StartsWith "cpu@".toUTF8.toList
  · refine Or.inr (Or.inr (Or.inl ⟨hcpu, ?_⟩))
    rw [beginState, if_neg hroot, if_neg hmemory, if_pos hcpu]
  have hleaves : ¬LeavesSoc d name := by
    rintro (h | h | h)
    · exact hroot h
    · exact hmemory h
    · exact hcpu h
  refine Or.inr (Or.inr (Or.inr ⟨hleaves, ?_⟩))
  rw [beginState, if_neg hroot, if_neg hmemory, if_neg hcpu]
  by_cases hctl : state = .cpu ∧ name.StartsWith "interrupt-controller".toUTF8.toList
  · exact Or.inl ⟨hctl.1, hctl.2, if_pos hctl⟩
  rw [if_neg hctl]
  refine Or.inr ⟨hctl, ?_⟩
  by_cases hsoc : d = 1 ∧ name.StartsWith "soc".toUTF8.toList
  · exact Or.inl ⟨hsoc, if_pos hsoc⟩
  rw [if_neg hsoc]
  refine Or.inr ⟨hsoc, ?_⟩
  by_cases hctl' : state = .soc ∧ (name.StartsWith "interrupt-controller@".toUTF8.toList ∨
      name.StartsWith "plic@".toUTF8.toList)
  · exact Or.inl ⟨hctl'.1, hctl'.2, if_pos hctl'⟩
  · exact Or.inr ⟨hctl', if_neg hctl'⟩

theorem LeavesSoc.shallow (h : LeavesSoc d name) : d ≤ 2 := by
  rcases h with h | h | h
  · exact h.1 ▸ Nat.zero_le 2
  · exact h.1 ▸ Nat.le_succ 1
  · exact Nat.le_of_eq h.1

/-- A CPU is left by no beginning of a node below it, its controllers apart. -/
theorem beginState_eq_cpu (hdeep : state = .cpu → 3 ≤ d) :
    beginState name d state = .cpu ↔ IsCpu d name ∨ state = .cpu ∧ ¬IsCpuController name := by
  have hleaves : IsCpu d name → LeavesSoc d name := fun h => Or.inr (Or.inr h)
  have hshallow : LeavesSoc d name → state ≠ .cpu := fun hleaves hstate =>
    absurd (Nat.le_trans (hdeep hstate) hleaves.shallow) (by decide)
  have hsoc : IsSoc d name → state ≠ .cpu := fun h hstate =>
    absurd (h.1 ▸ hdeep hstate) (by decide)
  have hkinds : (IsRoot d name ∨ IsMemory d name) → ¬IsCpu d name := by
    rintro (h | h) hcpu
    · exact absurd (h.1.symm.trans hcpu.1) (by decide)
    · exact absurd (h.1.symm.trans hcpu.1) (by decide)
  grind [beginState_cases d name state, LeavesSoc]

theorem beginState_eq_cpuController (hdeep : state = .cpu ∨ state = .cpuInterruptController → 3 ≤ d) :
    beginState name d state = .cpuInterruptController ↔
      state = .cpu ∧ IsCpuController name ∨ state = .cpuInterruptController := by
  have hshallow : LeavesSoc d name → ¬(state = .cpu ∨ state = .cpuInterruptController) :=
    fun hleaves hstate => absurd (Nat.le_trans (hdeep hstate) hleaves.shallow) (by decide)
  have hsoc : IsSoc d name → ¬(state = .cpu ∨ state = .cpuInterruptController) := fun h hstate =>
    absurd (h.1 ▸ hdeep hstate) (by decide)
  grind [beginState_cases d name state, LeavesSoc]

theorem beginState_eq_soc :
    beginState name d state = .soc ↔
      IsSoc d name ∨ state = .soc ∧ ¬LeavesSoc d name ∧ ¬IsSocController name := by
  have hleaves : IsSoc d name → ¬LeavesSoc d name := IsSoc.not_leaves
  have hctl : IsSoc d name → ¬IsCpuController name := IsSoc.not_cpuController
  grind [beginState_cases d name state, LeavesSoc]

theorem beginState_eq_socController :
    beginState name d state = .socInterruptController ↔
      ¬LeavesSoc d name ∧ ¬IsSoc d name ∧
        (state = .soc ∧ IsSocController name ∨ state = .socInterruptController) := by
  have hleaves : IsSoc d name → ¬LeavesSoc d name := IsSoc.not_leaves
  grind [beginState_cases d name state, LeavesSoc]

end Begin

section Runs
variable {dtb : Dtb} {l : List FdtToken} {k : Track}

/-- The parser is where the tokens have taken it. -/
structure Track.At (k : Track) (l : List FdtToken) : Prop where
  depth : k.d = depthAfter l
  cpu : k.state = .cpu ↔ InCpu l ∧ ¬InCpuController l
  cpuController : k.state = .cpuInterruptController ↔ InCpu l ∧ InCpuController l
  cpuDeep : k.state = .cpu → 3 ≤ k.d
  cpuControllerDeep : k.state = .cpuInterruptController → 4 ≤ k.d
  soc : k.state = .soc ↔ InSoc l ∧ ¬InSocController l
  socController : k.state = .socInterruptController ↔ InSoc l ∧ InSocController l

theorem Track.At.start : Track.start.At [] where
  depth := rfl
  cpu := iff_of_false (by decide) fun h => not_inCpu_nil h.1
  cpuController := iff_of_false (by decide) fun h => not_inCpu_nil h.1
  cpuDeep := by decide
  cpuControllerDeep := by decide
  soc := iff_of_false (by decide) fun h => not_inSoc_nil h.1
  socController := iff_of_false (by decide) fun h => not_inSoc_nil h.1

theorem Track.At.prop (h : k.At l) (nameoff : BitVec 32) :
    (k.step dtb (.prop nameoff)).At (l ++ [.prop nameoff]) where
  depth := h.depth.trans depthAfter_prop.symm
  cpu := by
    rw [inCpu_prop, inCpuController_prop]
    exact h.cpu
  cpuController := by
    rw [inCpu_prop, inCpuController_prop]
    exact h.cpuController
  cpuDeep := h.cpuDeep
  cpuControllerDeep := h.cpuControllerDeep
  soc := by
    rw [inSoc_prop, inSocController_prop]
    exact h.soc
  socController := by
    rw [inSoc_prop, inSocController_prop]
    exact h.socController

theorem dtbEnd_eq_cpu (state : DtbState) :
    dtbEnd state = .cpu ↔ state = .cpuInterruptController := by
  cases state <;> decide

theorem dtbEnd_eq_soc (state : DtbState) :
    dtbEnd state = .soc ↔ state = .soc ∨ state = .socInterruptController := by
  cases state <;> decide

theorem dtbEnd_ne (state : DtbState) :
    dtbEnd state ≠ .cpuInterruptController ∧ dtbEnd state ≠ .socInterruptController := by
  cases state <;> decide

theorem Track.At.endNode (h : k.At l) : (k.step dtb .endNode).At (l ++ [.endNode]) where
  depth := by rw [Track.step_endNode_d, h.depth, depthAfter_endNode]
  cpu := by
    rw [inCpu_endNode, and_iff_left not_inCpuController_endNode, ← h.cpuController]
    exact dtbEnd_eq_cpu k.state
  cpuController :=
    iff_of_false (dtbEnd_ne k.state).1 fun hin => not_inCpuController_endNode hin.2
  cpuDeep := by
    intro hstate
    have hdeep := h.cpuControllerDeep ((dtbEnd_eq_cpu k.state).mp hstate)
    rw [Track.step_endNode_d]
    omega
  cpuControllerDeep := fun hstate => absurd hstate (dtbEnd_ne k.state).1
  soc := by
    rw [inSoc_endNode, and_iff_left not_inSocController_endNode]
    refine (dtbEnd_eq_soc k.state).trans ?_
    rw [h.soc, h.socController, ← and_or_left, or_comm, and_iff_left (Classical.em _)]
  socController :=
    iff_of_false (dtbEnd_ne k.state).2 fun hin => not_inSocController_endNode hin.2

/-- The parser is in a CPU or its interrupt controller only in nodes below depth 2. -/
theorem Track.At.deep (h : k.At l) (hin : InCpu l) : 3 ≤ depthAfter l := by
  rw [← h.depth]
  by_cases hctl : InCpuController l
  · exact Nat.le_of_succ_le (h.cpuControllerDeep (h.cpuController.mpr ⟨hin, hctl⟩))
  · exact h.cpuDeep (h.cpu.mpr ⟨hin, hctl⟩)

theorem Track.At.begin (h : k.At l) (name : NodeName) :
    (k.step dtb (.begin name)).At (l ++ [.begin name]) := by
  have hstate : (k.step dtb (.begin name)).state = beginState name (depthAfter l) k.state :=
    h.depth ▸ rfl
  have hdeep : k.state = .cpu ∨ k.state = .cpuInterruptController → 3 ≤ depthAfter l := by
    rintro (hcpu | hctl)
    · exact h.deep (h.cpu.mp hcpu).1
    · exact h.deep (h.cpuController.mp hctl).1
  constructor
  · rw [Track.step_begin_d, h.depth, depthAfter_begin]
  · rw [hstate, beginState_eq_cpu fun hcpu => hdeep (Or.inl hcpu), h.cpu, inCpu_begin,
      inCpuController_begin]
    have hctl := @IsCpu.not_controller (depthAfter l) name
    grind
  · rw [hstate, beginState_eq_cpuController hdeep, h.cpu, h.cpuController, inCpu_begin,
      inCpuController_begin]
    have hctl := @IsCpu.not_controller (depthAfter l) name
    have hout : InCpu l → ¬IsCpu (depthAfter l) name := fun hin hcpu =>
      absurd (hcpu.1 ▸ h.deep hin) (by decide)
    grind
  · rw [hstate, beginState_eq_cpu fun hcpu => hdeep (Or.inl hcpu), Track.step_begin_d, h.depth]
    rintro (hcpu | hcpu)
    · rw [hcpu.1]
    · exact Nat.le_succ_of_le (hdeep (Or.inl hcpu.1))
  · rw [hstate, beginState_eq_cpuController hdeep, Track.step_begin_d, h.depth]
    rintro (hctl | hctl)
    · exact Nat.succ_le_succ (hdeep (Or.inl hctl.1))
    · exact Nat.succ_le_succ (hdeep (Or.inr hctl))
  · rw [hstate, beginState_eq_soc, h.soc, inSoc_begin, inSocController_begin]
    have hleaves := @IsSoc.not_leaves (depthAfter l) name
    have hctl := @IsSoc.not_socController (depthAfter l) name
    grind
  · rw [hstate, beginState_eq_socController, h.soc, h.socController, inSoc_begin,
      inSocController_begin]
    have hleaves := @IsSocController.not_leaves (depthAfter l) name
    have hctl := @IsSoc.not_socController (depthAfter l) name
    grind

/-- Behind any tokens, the parser is where they have taken it. -/
theorem Track.at_run (dtb : Dtb) (l : List FdtToken) : (Track.start.run dtb l).At l := by
  induction l using List.reverseRecOn with
  | nil => exact .start
  | append_singleton l t ih =>
      rw [Track.run_append, Track.run_cons, Track.run_nil]
      cases t with
      | begin name => exact ih.begin name
      | prop nameoff => exact ih.prop nameoff
      | endNode => exact ih.endNode

end Runs

end Plo.Hal
