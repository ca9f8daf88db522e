import Plo.Hal.DtbRuns

/-!
What the parser finds in a tree. The count of CPUs is that of the tree. An index of the array is
the number of CPUs that began before, and the interrupt controller is taken for there when a
property stands where the parser is in one.
-/
namespace Plo.Sbi

/-- All nodes below, with their names. -/
def Items.descendants : Items → List (NodeName × Items)
  | .done => []
  | .nop rest => rest.descendants
  | .prop _ _ rest => rest.descendants
  | .node name items rest => (name, items) :: (items.descendants ++ rest.descendants)

def Items.hasProp : Items → Bool
  | .done => false
  | .nop rest => rest.hasProp
  | .prop _ _ _ => true
  | .node _ _ rest => rest.hasProp

/-- The number of nodes at depth 2 whose name starts with `cpu@`. -/
def Tree.cpuNodes (tree : Tree) : Nat :=
  (tree.items.listing (nodeHead tree.name).length 1).countP fun n =>
    n.depth = 2 ∧ n.name.StartsWith "cpu@".toUTF8.toList

/-- An interrupt controller with a property lies under a node `soc` at depth 1. -/
def Tree.hasPlic (tree : Tree) : Bool :=
  tree.items.children.any fun soc => soc.1.StartsWith "soc".toUTF8.toList &&
    soc.2.descendants.any fun node =>
      (node.1.StartsWith "interrupt-controller@".toUTF8.toList ||
        node.1.StartsWith "plic@".toUTF8.toList) && node.2.hasProp

end Plo.Sbi

namespace Plo.Hal
open Lib
open Sbi

instance (d : Nat) (name : NodeName) : Decidable (IsCpu d name) :=
  inferInstanceAs (Decidable (_ ∧ _))

/-- The CPUs that begin among the tokens, the first of which stands at depth `d`. -/
def cpusFrom : Nat → List FdtToken → Nat
  | _, [] => 0
  | d, .begin name :: l => (if IsCpu d name then 1 else 0) + cpusFrom (d + 1) l
  | d, .prop _ :: l => cpusFrom d l
  | d, .endNode :: l => cpusFrom (d - 1) l

def cpuBegins (l : List FdtToken) : Nat := cpusFrom 0 l

/-- The property has this name. -/
def Dtb.Named (dtb : Dtb) (nameoff : BitVec 32) (s : String) : Prop :=
  HoldsString (fun k => dtb.mem (dtbGetString dtb nameoff + k)) s.toUTF8.toList

/-- The token is a property that is kept of a CPU, and stands where the parser is in one. -/
def KeepsCpu (dtb : Dtb) (l : List FdtToken) (t : FdtToken) : Prop :=
  InCpu l ∧ ¬InCpuController l ∧ ∃ nameoff, t = .prop nameoff ∧
    (dtb.Named nameoff "compatible" ∨ dtb.Named nameoff "riscv,isa" ∨
      dtb.Named nameoff "mmu-type" ∨ dtb.Named nameoff "clock-frequency")

/-- No property is kept of a CPU behind the eighth. -/
def CpusFit (dtb : Dtb) (l : List FdtToken) : Prop :=
  ¬Once (fun l t => KeepsCpu dtb l t ∧ 8 < cpuBegins l) l

/-- A property stands where the parser is in an interrupt controller of `soc`. -/
def SeesPlic : List FdtToken → Prop :=
  Once fun l t => InSocController l ∧ ∃ nameoff, t = .prop nameoff

section Cpus
variable {l l' : List FdtToken} {d : Nat}

theorem cpusFrom_append :
    cpusFrom d (l ++ l') = cpusFrom d l + cpusFrom (l.foldl nextDepth d) l' := by
  induction l generalizing d with
  | nil => rw [List.nil_append, cpusFrom, Nat.zero_add, List.foldl_nil]
  | cons t l ih =>
      rw [List.cons_append, List.foldl_cons]
      cases t with
      | begin name => rw [cpusFrom, cpusFrom, ih, Nat.add_assoc, nextDepth]
      | prop nameoff => rw [cpusFrom, cpusFrom, ih, nextDepth]
      | endNode => rw [cpusFrom, cpusFrom, ih, nextDepth]

@[simp] theorem cpuBegins_begin (name : NodeName) : cpuBegins (l ++ [.begin name]) =
    cpuBegins l + if IsCpu (depthAfter l) name then 1 else 0 := cpusFrom_append

@[simp] theorem cpuBegins_prop (nameoff : BitVec 32) :
    cpuBegins (l ++ [.prop nameoff]) = cpuBegins l := cpusFrom_append

@[simp] theorem cpuBegins_endNode : cpuBegins (l ++ [.endNode]) = cpuBegins l := cpusFrom_append

/-- The tokens of a node's items end at the depth at which they begin. -/
theorem depth_items (items : Items) (d : Nat) : items.tokens.foldl nextDepth d = d := by
  induction items generalizing d with
  | done => rfl
  | nop rest ih => exact ih d
  | prop nameoff data rest ih => exact ih d
  | node name items rest ih ih' =>
      rw [Items.tokens, List.foldl_cons, List.foldl_append, List.foldl_cons, ih, nextDepth,
        nextDepth, Nat.add_sub_cancel, ih']

theorem cpusFrom_items (items : Items) (ofs d : Nat) :
    cpusFrom d items.tokens = (items.listing ofs d).countP fun n =>
      n.depth = 2 ∧ n.name.StartsWith "cpu@".toUTF8.toList := by
  induction items generalizing ofs d with
  | done => rfl
  | nop rest ih => exact ih _ _
  | prop nameoff data rest ih => exact ih _ _
  | node name items rest ih ih' =>
      have hend : cpusFrom (d + 1) (items.tokens ++ .endNode :: rest.tokens) =
          cpusFrom (d + 1) items.tokens + cpusFrom d rest.tokens := by
        rw [cpusFrom_append, depth_items, cpusFrom, Nat.add_sub_cancel]
      have hfirst : (if IsCpu d name then 1 else 0) =
          if decide ((d : Int) = 2 ∧ name.StartsWith "cpu@".toUTF8.toList = true) = true then 1
          else 0 := by
        refine if_congr (Iff.trans ?_ decide_eq_true_iff.symm) rfl rfl
        rw [IsCpu]
        norm_cast
      rw [Items.tokens, cpusFrom, hend, hfirst, Items.listing, List.countP_cons, List.countP_append,
        ih (ofs + (nodeHead name).length), Nat.cast_succ,
        ih' (ofs + (nodeHead name).length + items.bytes.length + 4), Nat.add_comm]

theorem cpuBegins_tokens (tree : Tree) : cpuBegins tree.tokens = tree.cpuNodes := by
  have hroot : ¬IsCpu 0 tree.name := fun h => absurd h.1 (by decide)
  rw [cpuBegins, Tree.tokens, cpusFrom, if_neg hroot, Nat.zero_add, cpusFrom_append,
    cpusFrom_items tree.items (nodeHead tree.name).length]
  rfl

theorem depthAfter_tokens (tree : Tree) : depthAfter tree.tokens = 0 := by
  rw [depthAfter, Tree.tokens, List.foldl_cons, List.foldl_append, depth_items]
  rfl

end Cpus

section Runs
variable {dtb : Dtb} {l : List FdtToken} {k : Track}

/-- The CPUs that are counted, and the one the parser is in. -/
structure Track.Counts (k : Track) (l : List FdtToken) : Prop where
  inside : InCpu l → k.ncpus + 1 = cpuBegins l
  outside : ¬InCpu l → k.ncpus = cpuBegins l

theorem Track.Counts.begin (h : k.Counts l) (hat : k.At l) (name : NodeName) :
    (k.step dtb (.begin name)).Counts (l ++ [.begin name]) := by
  by_cases his : IsCpu (depthAfter l) name
  · have hout : ¬InCpu l := fun hin => absurd (his.1 ▸ hat.deep hin) (by decide)
    refine ⟨fun _ => ?_, fun hnot => absurd (inCpu_begin.mpr (Or.inl his)) hnot⟩
    rw [cpuBegins_begin, if_pos his, ← h.outside hout]
    rfl
  · have hcount : cpuBegins (l ++ [.begin name]) = cpuBegins l := by
      rw [cpuBegins_begin, if_neg his, Nat.add_zero]
    have hin : InCpu (l ++ [.begin name]) ↔ InCpu l := inCpu_begin.trans (or_iff_right his)
    exact ⟨fun h' => hcount ▸ h.inside (hin.mp h'), fun h' => hcount ▸ h.outside (mt hin.mpr h')⟩

theorem Track.Counts.endNode (h : k.Counts l) (hat : k.At l) :
    (k.step dtb .endNode).Counts (l ++ [.endNode]) := by
  have hncpus : (k.step dtb .endNode).ncpus = if k.state = .cpu then k.ncpus + 1 else k.ncpus := rfl
  constructor
  · intro hin
    have hin' := inCpu_endNode.mp hin
    rw [hncpus, if_neg fun hcpu => (hat.cpu.mp hcpu).2 hin'.2, cpuBegins_endNode]
    exact h.inside hin'.1
  · intro hout
    rw [hncpus, cpuBegins_endNode]
    by_cases hcpu : k.state = .cpu
    · rw [if_pos hcpu]
      exact h.inside (hat.cpu.mp hcpu).1
    · rw [if_neg hcpu]
      refine h.outside fun hin => ?_
      have hctl : ¬InCpuController l := fun hctl => hout (inCpu_endNode.mpr ⟨hin, hctl⟩)
      exact hcpu (hat.cpu.mpr ⟨hin, hctl⟩)

theorem Track.counts_run (dtb : Dtb) (l : List FdtToken) : (Track.start.run dtb l).Counts l := by
  induction l using List.reverseRecOn with
  | nil => exact ⟨fun h => absurd h not_inCpu_nil, fun _ => rfl⟩
  | append_singleton l t ih =>
      have hat := Track.at_run dtb l
      rw [Track.run_append, Track.run_cons, Track.run_nil]
      cases t with
      | begin name => exact ih.begin hat name
      | endNode => exact ih.endNode hat
      | prop nameoff =>
          exact ⟨fun h => (ih.inside (inCpu_prop.mp h)).trans (cpuBegins_prop nameoff).symm,
            fun h => (ih.outside (mt inCpu_prop.mpr h)).trans (cpuBegins_prop nameoff).symm⟩

/-- Behind the root, the parser has counted all CPUs. -/
theorem ncpus_tokens (dtb : Dtb) (tree : Tree) :
    (Track.start.run dtb tree.tokens).ncpus = tree.cpuNodes := by
  have hout : ¬InCpu tree.tokens := by
    intro hin
    have hdeep := (Track.at_run dtb tree.tokens).deep hin
    rw [depthAfter_tokens] at hdeep
    exact absurd hdeep (by decide)
  rw [(Track.counts_run dtb tree.tokens).outside hout, cpuBegins_tokens]

theorem cpuProp_iff (nameoff : BitVec 32) : cpuProp dtb nameoff = true ↔
    dtb.Named nameoff "compatible" ∨ dtb.Named nameoff "riscv,isa" ∨
      dtb.Named nameoff "mmu-type" ∨ dtb.Named nameoff "clock-frequency" := by
  have hnamed {s : String} (hs : 0 ∉ s.toUTF8.toList) :
      dtbStringIs dtb nameoff s.toUTF8.toList = true ↔ dtb.Named nameoff s :=
    decide_eq_true_iff.trans (strcmp_constant hs)
  rw [cpuProp]
  simp only [List.any_cons, List.any_nil, Bool.or_false, Bool.or_eq_true]
  rw [hnamed (by decide +kernel), hnamed (by decide +kernel), hnamed (by decide +kernel),
    hnamed (by decide +kernel)]

/-- A property is written at the index of the CPU the parser is in. -/
theorem mem_writes_run (dtb : Dtb) (l : List FdtToken) (i : Nat) :
    i ∈ (Track.start.run dtb l).writes ↔
      Once (fun l t => KeepsCpu dtb l t ∧ i + 1 = cpuBegins l) l := by
  induction l using List.reverseRecOn with
  | nil => exact iff_of_false List.not_mem_nil not_once_nil
  | append_singleton l t ih =>
      have hat := Track.at_run dtb l
      rw [Track.run_append, Track.run_cons, Track.run_nil, once_snoc, ← ih]
      cases t with
      | begin name => exact (or_iff_left fun h => by obtain ⟨⟨-, -, _, h, -⟩, -⟩ := h; cases h).symm
      | endNode => exact (or_iff_left fun h => by obtain ⟨⟨-, -, _, h, -⟩, -⟩ := h; cases h).symm
      | prop nameoff =>
          have hwrites : ((Track.start.run dtb l).step dtb (.prop nameoff)).writes =
              if (Track.start.run dtb l).state = .cpu ∧ cpuProp dtb nameoff then
                (Track.start.run dtb l).writes ++ [(Track.start.run dtb l).ncpus]
              else (Track.start.run dtb l).writes := rfl
          by_cases hkeeps : (Track.start.run dtb l).state = .cpu ∧ cpuProp dtb nameoff
          · have hin := hat.cpu.mp hkeeps.1
            have hcount := (Track.counts_run dtb l).inside hin.1
            rw [hwrites, if_pos hkeeps, List.mem_append, List.mem_singleton, ← hcount,
              Nat.add_right_cancel_iff]
            refine or_congr_right (and_iff_right ?_).symm
            exact ⟨hin.1, hin.2, nameoff, rfl, (cpuProp_iff nameoff).mp hkeeps.2⟩
          · rw [hwrites, if_neg hkeeps]
            refine (or_iff_left fun h => ?_).symm
            obtain ⟨⟨hin, hctl, _, heq, hnamed⟩, -⟩ := h
            cases heq
            exact hkeeps ⟨hat.cpu.mpr ⟨hin, hctl⟩, (cpuProp_iff nameoff).mpr hnamed⟩

/-- The indexes are those of the array exactly if no property is kept of a ninth CPU. -/
theorem writes_lt_iff (dtb : Dtb) (l : List FdtToken) :
    (∀ i ∈ (Track.start.run dtb l).writes, i < 8) ↔ CpusFit dtb l := by
  simp only [mem_writes_run]
  constructor
  · rintro h ⟨l₁, t, l₂, hl, hkeeps, hcount⟩
    have hlast := h (cpuBegins l₁ - 1) ⟨l₁, t, l₂, hl, hkeeps, by omega⟩
    omega
  · rintro h i ⟨l₁, t, l₂, hl, hkeeps, hcount⟩
    by_contra hge
    exact h ⟨l₁, t, l₂, hl, hkeeps, by omega⟩

theorem InSocController.inSoc (h : InSocController l) : InSoc l := by
  induction l using List.reverseRecOn with
  | nil => exact absurd h not_inSocController_nil
  | append_singleton l t ih =>
      cases t with
      | begin name =>
          rcases inSocController_begin.mp h with ⟨hin, hname⟩ | ⟨hin, hleaves, -⟩
          · exact inSoc_begin.mpr (Or.inr ⟨hin, hname.not_leaves⟩)
          · exact inSoc_begin.mpr (Or.inr ⟨ih hin, hleaves⟩)
      | prop nameoff => exact inSoc_prop.mpr (ih (inSocController_prop.mp h))
      | endNode => exact absurd h not_inSocController_endNode

/-- The controller is found where a property stands in it. -/
theorem exist_run (dtb : Dtb) (l : List FdtToken) :
    (Track.start.run dtb l).exist = 1 ↔ SeesPlic l := by
  induction l using List.reverseRecOn with
  | nil => exact iff_of_false (by rw [Track.run_nil]; decide) not_once_nil
  | append_singleton l t ih =>
      have hat := Track.at_run dtb l
      rw [Track.run_append, Track.run_cons, Track.run_nil, SeesPlic, once_snoc, ← SeesPlic, ← ih]
      cases t with
      | begin name => exact (or_iff_left fun h => by obtain ⟨-, _, h⟩ := h; cases h).symm
      | endNode => exact (or_iff_left fun h => by obtain ⟨-, _, h⟩ := h; cases h).symm
      | prop nameoff =>
          have hexist : ((Track.start.run dtb l).step dtb (.prop nameoff)).exist =
              if (Track.start.run dtb l).state = .socInterruptController then 1
              else (Track.start.run dtb l).exist := rfl
          by_cases hctl : InSocController l
          · rw [hexist, if_pos (hat.socController.mpr ⟨hctl.inSoc, hctl⟩)]
            exact iff_of_true rfl (Or.inr ⟨hctl, nameoff, rfl⟩)
          · rw [hexist, if_neg fun h => hctl (hat.socController.mp h).2]
            exact (or_iff_left fun h => hctl h.1).symm

/-- The number of CPUs is right, the indexes are those of the array, and the controller is found,
exactly if no property is kept of a ninth CPU and a property is seen in a controller exactly where
the tree has one. -/
theorem dtbParse_iff (dtb : Dtb) (lead : Nat) (tree : Tree) (h : dtb.Holds lead tree) (turns : Nat)
    (hturns : (leadBytes lead ++ tree.bytes).length ≤ turns) (c : DtbCommon) :
    (∃ c', dtbParse dtb turns { c with writes := [] } = some c' ∧ c'.ncpus = tree.cpuNodes ∧
        (∀ i ∈ c'.writes, i < 8) ∧ (dtbGetPLIC c' = 1 ↔ tree.hasPlic = true)) ↔
      CpusFit dtb tree.tokens ∧ (SeesPlic tree.tokens ↔ tree.hasPlic = true) := by
  obtain ⟨c', hparse, hncpus, hwrites, hexist⟩ := dtbParse_run h hturns c
  have hcount : c'.ncpus = tree.cpuNodes := hncpus.trans (ncpus_tokens dtb tree)
  have hfit : (∀ i ∈ c'.writes, i < 8) ↔ CpusFit dtb tree.tokens :=
    hwrites ▸ writes_lt_iff dtb tree.tokens
  have hplic : dtbGetPLIC c' = 1 ↔ SeesPlic tree.tokens := by
    rw [dtbGetPLIC, hexist]
    exact exist_run dtb tree.tokens
  constructor
  · rintro ⟨c'', hparse', -, hlt, hfound⟩
    cases Option.some.inj (hparse.symm.trans hparse')
    exact ⟨hfit.mp hlt, hplic.symm.trans hfound⟩
  · rintro ⟨hfits, hsees⟩
    exact ⟨c', hparse, hcount, hfit.mpr hfits, hplic.trans hsees⟩

end Runs

section Example

/-- A device tree in memory: the header, the structure block and one string. -/
def dtbOf (tree : Tree) (s : String) : Dtb where
  mem := fun a =>
    let header := [0xd00dfeed, 0, 40, BitVec.ofNat 32 (40 + tree.bytes.length), 0, 17, 16, 0, 0,
      BitVec.ofNat 32 tree.bytes.length]
    (header.flatMap wordBytes ++ (tree.bytes ++ s.toUTF8.toList)).getD (a - 4096) 0
  fdth := 4096

def emptyCommon : DtbCommon where
  model := 0
  compatible := 0
  ncpus := 0
  cpus := fun _ => ⟨0, 0, 0, 0⟩
  nreg := 0
  reg := 0
  exist := 0
  writes := []

def nodeNamed (s : String) : NodeName := .ofString (.ofBuffer s.toUTF8.toList)

/-- The controller of `soc`, and a CPU with one of its own. -/
def usualTree : Tree where
  name := nodeNamed ""
  items := .node (nodeNamed "cpus")
    (.node (nodeNamed "cpu@0")
      (.prop 0 [1] (.node (nodeNamed "interrupt-controller") (.prop 0 [2] .done) .done)) .done)
    (.node (nodeNamed "soc") (.node (nodeNamed "plic@c") (.prop 0 [3] .done) .done) .done)
  nops := 0

theorem dtbParse_iff_usual :
    CpusFit (dtbOf usualTree "compatible") usualTree.tokens ∧
      (SeesPlic usualTree.tokens ↔ usualTree.hasPlic = true) := by
  have hholds : (dtbOf usualTree "compatible").Holds 0 usualTree :=
    ⟨by decide +kernel, by decide +kernel, by decide +kernel⟩
  have hrun : (dtbParse (dtbOf usualTree "compatible") 300 emptyCommon).map
      (fun c => (c.ncpus, c.writes, c.exist)) = some (usualTree.cpuNodes, [0], 1) := by
    decide +kernel
  have hplic : usualTree.hasPlic = true := by decide +kernel
  obtain ⟨c', hparse, hdata⟩ := Option.map_eq_some_iff.mp hrun
  simp only [Prod.mk.injEq] at hdata
  obtain ⟨hncpus, hwrites, hexist⟩ := hdata
  refine (dtbParse_iff (dtbOf usualTree "compatible") 0 usualTree hholds 300 (by decide +kernel)
    emptyCommon).mp ⟨c', hparse, hncpus, ?_, iff_of_true hexist hplic⟩
  rw [hwrites]
  decide

/-- A controller behind an empty node `soc`, not under it. -/
def behindSoc : Tree where
  name := nodeNamed ""
  items := .node (nodeNamed "soc") .done
    (.node (nodeNamed "plic@c") (.prop 0 [3] .done) .done)
  nops := 0

theorem dtbParse_behindSoc :
    (dtbOf behindSoc "reg").Holds 0 behindSoc ∧ behindSoc.bytes.length ≤ 100 ∧
      ¬∃ c', dtbParse (dtbOf behindSoc "reg") 100 emptyCommon = some c' ∧
        c'.ncpus = behindSoc.cpuNodes ∧ (∀ i ∈ c'.writes, i < 8) ∧
        (dtbGetPLIC c' = 1 ↔ behindSoc.hasPlic = true) := by
  refine ⟨⟨by decide +kernel, by decide +kernel, by decide +kernel⟩, by decide +kernel, ?_⟩
  rintro ⟨c', hparse, -, -, hplic⟩
  have hfound : (dtbParse (dtbOf behindSoc "reg") 100 emptyCommon).map dtbGetPLIC = some 1 := by
    decide +kernel
  rw [hparse] at hfound
  exact absurd (hplic.mp (Option.some.inj hfound)) (by decide +kernel)

end Example

end Plo.Hal
