import Plo.Hal.Dtb
import Plo.Sbi.FdtFind

/-!
The tokens of a device tree, in the order of the structure block, and what the parser keeps of
them: the depth, its state and the data of the CPUs and of the interrupt controller. In memory
the parser goes on token by token in the same way.
-/
namespace Plo.Sbi

/-- A token of the structure block. -/
inductive FdtToken
  | begin (name : NodeName)
  | prop (nameoff : BitVec 32)
  | endNode

def Items.tokens : Items → List FdtToken
  | .done => []
  | .nop rest => rest.tokens
  | .prop nameoff _ rest => .prop nameoff :: rest.tokens
  | .node name items rest => .begin name :: (items.tokens ++ .endNode :: rest.tokens)

def Tree.tokens (tree : Tree) : List FdtToken := .begin tree.name :: (tree.items.tokens ++ [.endNode])

end Plo.Sbi

namespace Plo.Hal
open Lib
open Sbi

/-- The structure block that the header names. -/
def Dtb.fdt (dtb : Dtb) : Fdt where
  mem := dtb.mem
  dtStruct := dtb.fdth + (ntoh32 dtb (dtb.fdth + 8)).toNat
  sizeDtStruct := ntoh32 dtb (dtb.fdth + 36)

/-- NOP tokens before the root. -/
def leadBytes : Nat → List UInt8
  | 0 => []
  | n + 1 => wordBytes FDT_NOP ++ leadBytes n

/-- The device tree is in memory, with a header and NOP tokens before it. -/
structure Dtb.Holds (dtb : Dtb) (lead : Nat) (tree : Tree) : Prop where
  magic : ntoh32 dtb dtb.fdth = 0xd00dfeed
  size : dtb.fdt.sizeDtStruct.toNat = (leadBytes lead ++ tree.bytes).length
  mem : slice dtb.mem dtb.fdt.dtStruct (leadBytes lead ++ tree.bytes).length =
    leadBytes lead ++ tree.bytes

/-- What the parser keeps of the tokens. -/
structure Track where
  d : Nat
  state : DtbState
  ncpus : Nat
  writes : List Nat
  exist : Int

/-- The state behind the beginning of a node at depth `d`. -/
def beginState (name : NodeName) (d : Nat) (state : DtbState) : DtbState :=
  if d = 0 ∧ name.bytes = [] then .system
  else if d = 1 ∧ name.StartsWith "memory@".toUTF8.toList then .memory
  else if d = 2 ∧ name.StartsWith "cpu@".toUTF8.toList then .cpu
  else if state = .cpu ∧ name.StartsWith "interrupt-controller".toUTF8.toList then
    .cpuInterruptController
  else if d = 1 ∧ name.StartsWith "soc".toUTF8.toList then .soc
  else if state = .soc ∧ (name.StartsWith "interrupt-controller@".toUTF8.toList ∨
      name.StartsWith "plic@".toUTF8.toList) then .socInterruptController
  else state

/-- The property is one that the entry of a CPU has. -/
def cpuProp (dtb : Dtb) (nameoff : BitVec 32) : Bool :=
  ["compatible", "riscv,isa", "mmu-type", "clock-frequency"].any fun s =>
    dtbStringIs dtb nameoff s.toUTF8.toList

namespace Track

def start : Track := ⟨0, .idle, 0, [], 0⟩

def step (dtb : Dtb) (k : Track) : FdtToken → Track
  | .begin name => { k with d := k.d + 1, state := beginState name k.d k.state }
  | .prop nameoff =>
    { k with
      writes := if k.state = .cpu ∧ cpuProp dtb nameoff then k.writes ++ [k.ncpus] else k.writes
      exist := if k.state = .socInterruptController then 1 else k.exist }
  | .endNode =>
    { k with
      d := k.d - 1
      state := dtbEnd k.state
      ncpus := if k.state = .cpu then k.ncpus + 1 else k.ncpus }

def run (dtb : Dtb) (k : Track) (tokens : List FdtToken) : Track := tokens.foldl (step dtb) k

/-- The data of the parser are these. -/
structure Is (k : Track) (c : DtbCommon) : Prop where
  ncpus : c.ncpus = k.ncpus
  writes : c.writes = k.writes
  exist : c.exist = k.exist

def locals (k : Track) (pos : Nat) : DtbLocals := ⟨pos, BitVec.ofNat 32 k.d, k.state⟩

end Track

section
variable {dtb : Dtb} {k k' k'' : Track} {pos n n' : Nat}

@[simp] theorem Track.step_begin_d (name : NodeName) : (k.step dtb (.begin name)).d = k.d + 1 := rfl

@[simp] theorem Track.step_prop_d (nameoff : BitVec 32) : (k.step dtb (.prop nameoff)).d = k.d := rfl

@[simp] theorem Track.step_endNode_d : (k.step dtb .endNode).d = k.d - 1 := rfl

@[simp] theorem Track.run_nil : k.run dtb [] = k := rfl

@[simp] theorem Track.run_cons (t : FdtToken) (tokens : List FdtToken) :
    k.run dtb (t :: tokens) = (k.step dtb t).run dtb tokens := rfl

theorem Track.run_append (tokens tokens' : List FdtToken) :
    k.run dtb (tokens ++ tokens') = (k.run dtb tokens).run dtb tokens' := List.foldl_append

/-- From an address on, the parser comes to one `n` bytes behind it. -/
def Dtb.Goes (dtb : Dtb) (pos : Nat) (k : Track) (n : Nat) (k' : Track) : Prop :=
  ∀ ⦃c turns m⦄, k.Is c → n + m ≤ turns → ∃ c' turns', k'.Is c' ∧ m ≤ turns' ∧
    dtbParseLoop dtb turns (k.locals pos) c = dtbParseLoop dtb turns' (k'.locals (pos + n)) c'

theorem goes_none : dtb.Goes pos k 0 k := by
  intro c turns m hc hturns
  exact ⟨c, turns, hc, by omega, rfl⟩

theorem Dtb.Goes.trans (h : dtb.Goes pos k n k') (h' : dtb.Goes (pos + n) k' n' k'') :
    dtb.Goes pos k (n + n') k'' := by
  intro c turns m hc hturns
  obtain ⟨c', turns', hc', hturns', heq⟩ := @h c turns (n' + m) hc (by omega)
  obtain ⟨c'', turns'', hc'', hturns'', heq'⟩ := h' hc' hturns'
  rw [Nat.add_assoc] at heq'
  exact ⟨c'', turns'', hc'', hturns'', heq.trans heq'⟩

/-- A word that is no token is passed. -/
theorem goes_word {w : BitVec 32} (h : ntoh32 dtb pos = w) (hw : w = 0 ∨ w = 4) :
    dtb.Goes pos k 4 k := by
  intro c turns m hc hturns
  obtain ⟨turns, rfl⟩ : ∃ t, turns = t + 1 := ⟨turns - 1, by omega⟩
  have hne : w ≠ 1 ∧ w ≠ 3 ∧ w ≠ 2 ∧ w ≠ 9 := by
    rcases hw with rfl | rfl <;> decide
  refine ⟨c, turns, hc, by omega, ?_⟩
  simp only [dtbParseLoop, Track.locals, h, if_neg hne.1, if_neg hne.2.1, if_neg hne.2.2.1,
    if_neg hne.2.2.2]

theorem goes_endNode (h : ntoh32 dtb pos = 2) (hd : 0 < k.d) :
    dtb.Goes pos k 4 (k.step dtb .endNode) := by
  intro c turns m hc hturns
  obtain ⟨turns, rfl⟩ : ∃ t, turns = t + 1 := ⟨turns - 1, by omega⟩
  refine ⟨if k.state = .cpu then { c with ncpus := c.ncpus + 1 } else c, turns, ?_, by omega, ?_⟩
  · obtain ⟨hncpus, hwrites, hexist⟩ := hc
    by_cases hcpu : k.state = .cpu
    · rw [if_pos hcpu]
      exact ⟨by rw [hncpus, Track.step, if_pos hcpu], hwrites, hexist⟩
    · rw [if_neg hcpu]
      exact ⟨by rw [hncpus, Track.step, if_neg hcpu], hwrites, hexist⟩
  · have hdepth : BitVec.ofNat 32 k.d - 1 = BitVec.ofNat 32 (k.d - 1) := by
      obtain ⟨d, hd'⟩ : ∃ d, k.d = d + 1 := ⟨k.d - 1, by omega⟩
      rw [hd', Nat.add_sub_cancel, BitVec.ofNat_add]
      exact BitVec.add_sub_cancel _ _
    simp only [dtbParseLoop, Track.locals, Track.step, h, hdepth, if_true,
      if_neg (by decide : ¬(2 : BitVec 32) = 1), if_neg (by decide : ¬(2 : BitVec 32) = 3)]
    rfl

theorem Track.Is.dtbParseSystem {c : DtbCommon} (hc : k.Is c) (pos : Nat) (si : BitVec 32) :
    k.Is (dtbParseSystem dtb pos si c) := by
  obtain ⟨hncpus, hwrites, hexist⟩ := hc
  rw [Hal.dtbParseSystem]
  split
  · exact ⟨hncpus, hwrites, hexist⟩
  · split <;> exact ⟨hncpus, hwrites, hexist⟩

theorem Track.Is.dtbParseMemory {c : DtbCommon} (hc : k.Is c) (pos : Nat) (si : BitVec 32)
    (l : Nat) : k.Is (dtbParseMemory dtb pos si l c) := by
  obtain ⟨hncpus, hwrites, hexist⟩ := hc
  rw [Hal.dtbParseMemory]
  split <;> exact ⟨hncpus, hwrites, hexist⟩

/-- Each property of a CPU is written at one index, and others are not written. -/
theorem dtbParseCPU_cases (pos : Nat) (si : BitVec 32) (c : DtbCommon) :
    if cpuProp dtb si then ∃ f, dtbParseCPU dtb pos si c = c.setCpu f
    else dtbParseCPU dtb pos si c = c := by
  rw [dtbParseCPU, cpuProp]
  simp only [List.any_cons, List.any_nil, Bool.or_false, Bool.or_eq_true]
  by_cases hcompatible : dtbStringIs dtb si "compatible".toUTF8.toList = true
  · rw [if_pos (Or.inl hcompatible), if_pos hcompatible]
    exact ⟨_, rfl⟩
  by_cases hisa : dtbStringIs dtb si "riscv,isa".toUTF8.toList = true
  · rw [if_pos (Or.inr (Or.inl hisa)), if_neg hcompatible, if_pos hisa]
    exact ⟨_, rfl⟩
  by_cases hmmu : dtbStringIs dtb si "mmu-type".toUTF8.toList = true
  · rw [if_pos (Or.inr (Or.inr (Or.inl hmmu))), if_neg hcompatible, if_neg hisa, if_pos hmmu]
    exact ⟨_, rfl⟩
  by_cases hclock : dtbStringIs dtb si "clock-frequency".toUTF8.toList = true
  · rw [if_pos (Or.inr (Or.inr (Or.inr hclock))), if_neg hcompatible, if_neg hisa, if_neg hmmu,
      if_pos hclock]
    exact ⟨_, rfl⟩
  · rw [if_neg (by tauto), if_neg hcompatible, if_neg hisa, if_neg hmmu, if_neg hclock]

/-- A property changes the data in two states only. -/
theorem Track.step_prop_other (nameoff : BitVec 32) (hcpu : k.state ≠ .cpu)
    (hsoc : k.state ≠ .socInterruptController) : k.step dtb (.prop nameoff) = k := by
  rw [Track.step, if_neg fun h => hcpu h.1, if_neg hsoc]

theorem Track.Is.dtbProp {c : DtbCommon} (hc : k.Is c) (pos : Nat) (nameoff : BitVec 32)
    (l : Nat) : (k.step dtb (.prop nameoff)).Is (dtbProp dtb k.state pos nameoff l c) := by
  cases hstate : k.state with
  | idle | soc | cpuInterruptController =>
      rw [Track.step_prop_other nameoff (by rw [hstate]; decide) (by rw [hstate]; decide)]
      exact hc
  | system =>
      rw [Track.step_prop_other nameoff (by rw [hstate]; decide) (by rw [hstate]; decide)]
      exact hc.dtbParseSystem pos nameoff
  | memory =>
      rw [Track.step_prop_other nameoff (by rw [hstate]; decide) (by rw [hstate]; decide)]
      exact hc.dtbParseMemory pos nameoff l
  | socInterruptController =>
      have hcpu : k.state ≠ .cpu := by rw [hstate]; decide
      rw [Track.step, if_neg fun h => hcpu h.1, if_pos hstate]
      exact ⟨hc.ncpus, hc.writes, rfl⟩
  | cpu =>
      have hcases := @dtbParseCPU_cases dtb pos nameoff c
      have hsoc : k.state ≠ .socInterruptController := by rw [hstate]; decide
      by_cases hprop : cpuProp dtb nameoff = true
      · rw [if_pos hprop] at hcases
        obtain ⟨f, hf⟩ := hcases
        rw [Hal.dtbProp, hf, Track.step, if_pos ⟨hstate, hprop⟩, if_neg hsoc]
        refine ⟨hc.ncpus, ?_, hc.exist⟩
        rw [DtbCommon.setCpu, hc.writes, hc.ncpus]
      · rw [if_neg hprop] at hcases
        rw [Hal.dtbProp, hcases, Track.step, if_neg fun h => hprop h.2, if_neg hsoc]
        exact ⟨hc.ncpus, hc.writes, hc.exist⟩

theorem goes_prop {nameoff : BitVec 32} {data : List UInt8}
    (h : dtb.fdt.At pos (propBytes nameoff data))
    (hsize : (propBytes nameoff data).length < 2 ^ 32) :
    dtb.Goes pos k (propBytes nameoff data).length (k.step dtb (.prop nameoff)) := by
  intro c turns m hc hturns
  have hlen := length_propBytes nameoff data
  obtain ⟨turns, rfl⟩ : ∃ t, turns = t + 1 := ⟨turns - 1, by omega⟩
  have htoken : ntoh32 dtb pos = 3 := h.append.1.word
  have hword : ntoh32 dtb (pos + 4) = BitVec.ofNat 32 data.length := h.append.2.append.1.word
  have hnameoff : ntoh32 dtb (pos + 4 + 4) = nameoff := h.append.2.append.2.append.1.word
  have hdata : (BitVec.ofNat 32 data.length).toNat = data.length := by
    rw [BitVec.toNat_ofNat, Nat.mod_eq_of_lt (by omega)]
  have hend : pos + 4 + 8 + ceil4 data.length = pos + (propBytes nameoff data).length := by
    rw [ceil4_eq (by omega), hlen]
    omega
  refine ⟨_, turns, hc.dtbProp (pos + 4 + 8) nameoff (ceil4 data.length), by omega, ?_⟩
  simp only [dtbParseLoop, Track.locals, htoken, hword, hnameoff, hdata, hend, if_true,
    if_neg (by decide : ¬(3 : BitVec 32) = 1)]
  rfl

theorem strlen_eq {name : List UInt8} {turns : Nat} (h : dtb.fdt.At pos (name ++ [0]))
    (hnul : 0 ∉ name) (hturns : name.length < turns) :
    strlen dtb turns pos = some name.length := by
  induction name generalizing pos turns with
  | nil =>
      obtain ⟨turns, rfl⟩ := Nat.exists_eq_add_of_lt hturns
      have hbyte : dtb.mem pos = 0 := h.cons.1
      rw [strlen, if_pos hbyte, List.length_nil]
  | cons c name ih =>
      obtain ⟨turns, rfl⟩ := Nat.exists_eq_add_of_lt hturns
      obtain ⟨hbyte, hrest⟩ := h.cons
      have hne : ¬dtb.mem pos = 0 := fun hc => hnul (hbyte.symm.trans hc ▸ List.mem_cons_self)
      rw [strlen, if_neg hne, ih hrest (fun hmem => hnul (List.mem_cons_of_mem c hmem))
        (by rw [List.length_cons]; omega), Option.map_some, List.length_cons]

/-- The tests of a name in memory are those of the name. -/
theorem dtbBegin_eq {name : NodeName} (h : dtb.fdt.At pos (name.bytes ++ [0])) {d : Nat}
    (hd : d < 2 ^ 32) (state : DtbState) :
    dtbBegin dtb pos (BitVec.ofNat 32 d) state = beginState name d state := by
  have hstarts {s : List UInt8} {n : Nat} (hs : 0 ∉ s) (hn : s.length = n) :
      dtbStarts dtb pos s n = name.StartsWith s := by
    rw [dtbStarts, NodeName.StartsWith, decide_eq_decide, strncmp_comm_zero, ← hn]
    exact strncmp_prefix h.holdsString hs
  have hfirst : dtb.mem pos = 0 ↔ name.bytes = [] := by
    have hbyte : dtb.mem pos = constant name.bytes 0 := h.holdsString 0 (Nat.zero_le _)
    rw [hbyte, constant_eq_zero_iff name.no_nul, Nat.le_zero, List.length_eq_zero_iff]
  have hdepth {i : Nat} (hi : i < 2 ^ 32) : BitVec.ofNat 32 d = BitVec.ofNat 32 i ↔ d = i := by
    rw [← BitVec.toNat_inj, BitVec.toNat_ofNat, BitVec.toNat_ofNat, Nat.mod_eq_of_lt hd,
      Nat.mod_eq_of_lt hi]
  have hmemory := @hstarts "memory@".toUTF8.toList 7 (by decide +kernel) (by decide +kernel)
  have hcpu := @hstarts "cpu@".toUTF8.toList 4 (by decide +kernel) (by decide +kernel)
  have hctl := @hstarts "interrupt-controller".toUTF8.toList 20 (by decide +kernel)
    (by decide +kernel)
  have hsoc := @hstarts "soc".toUTF8.toList 3 (by decide +kernel) (by decide +kernel)
  have hctl' := @hstarts "interrupt-controller@".toUTF8.toList 21 (by decide +kernel)
    (by decide +kernel)
  have hplic := @hstarts "plic@".toUTF8.toList 5 (by decide +kernel) (by decide +kernel)
  have hzero : BitVec.ofNat 32 d = 0 ↔ d = 0 := hdepth (by decide)
  have hone : BitVec.ofNat 32 d = 1 ↔ d = 1 := hdepth (by decide)
  have htwo : BitVec.ofNat 32 d = 2 ↔ d = 2 := hdepth (by decide)
  simp only [dtbBegin, beginState, hfirst, hmemory, hcpu, hctl, hsoc, hctl', hplic, hzero, hone,
    htwo]

/-- The token of a node and its name are passed up to the word that ends the name. -/
theorem goes_name {name : NodeName} (htoken : ntoh32 dtb pos = 1)
    (h : dtb.fdt.At (pos + 4) (name.bytes ++ [0])) (hd : k.d < 2 ^ 32)
    (hsize : name.bytes.length < 2 ^ 32) :
    dtb.Goes pos k (4 + (name.bytes.length + 3) / 4 * 4) (k.step dtb (.begin name)) := by
  intro c turns m hc hturns
  obtain ⟨turns, rfl⟩ : ∃ t, turns = t + 1 := ⟨turns - 1, by omega⟩
  have hstrlen : strlen dtb turns (pos + 4) = some name.bytes.length :=
    strlen_eq h name.no_nul (by omega)
  have hdepth : BitVec.ofNat 32 k.d + 1 = BitVec.ofNat 32 (k.d + 1) :=
    (BitVec.ofNat_add k.d 1).symm
  refine ⟨c, turns, ⟨hc.ncpus, hc.writes, hc.exist⟩, by omega, ?_⟩
  simp only [dtbParseLoop, Track.locals, Track.step, htoken, hstrlen, hdepth, if_true,
    Option.bind_some, dtbBegin_eq h hd]
  rw [ceil4_eq (by omega), Nat.add_assoc]

/-- The head of a node. Where the name fills its words, a word of zeros is left. -/
theorem goes_begin {name : NodeName} (h : dtb.fdt.At pos (nodeHead name)) (hd : k.d < 2 ^ 32)
    (hsize : (nodeHead name).length < 2 ^ 32) :
    dtb.Goes pos k (nodeHead name).length (k.step dtb (.begin name)) := by
  have hlen := length_nodeHead name
  obtain ⟨htoken, hname⟩ := h.append
  replace htoken : ntoh32 dtb pos = 1 := htoken.word
  rw [length_wordBytes] at hname
  have hfirst := @goes_name dtb k pos name htoken hname.append.1 hd (by omega)
  by_cases hfull : name.bytes.length % 4 = 0
  · have hzeros : [0] ++ padding (name.bytes.length + 1) = wordBytes 0 := by
      have hpad : (4 - (name.bytes.length + 1) % 4) % 4 = 3 := by omega
      rw [padding, hpad]
      decide
    rw [List.append_assoc, hzeros] at hname
    have hword : ntoh32 dtb (pos + 4 + name.bytes.length) = 0 := hname.append.2.word
    have hpos : pos + (4 + (name.bytes.length + 3) / 4 * 4) = pos + 4 + name.bytes.length := by
      omega
    have hlast := hfirst.trans (goes_word (hpos ▸ hword) (Or.inl rfl))
    have hall : 4 + (name.bytes.length + 3) / 4 * 4 + 4 = (nodeHead name).length := by omega
    rwa [hall] at hlast
  · have hall : 4 + (name.bytes.length + 3) / 4 * 4 = (nodeHead name).length := by omega
    rwa [hall] at hfirst

/-- The items of a node are passed, and the depth is the same behind them. -/
theorem goes_items {items : Items} (h : dtb.fdt.At pos items.bytes) (hd : 0 < k.d)
    (hsize : k.d + items.bytes.length < 2 ^ 32) :
    dtb.Goes pos k items.bytes.length (k.run dtb items.tokens) ∧
      (k.run dtb items.tokens).d = k.d := by
  induction items generalizing pos k with
  | done => exact ⟨goes_none, rfl⟩
  | nop rest ih =>
      rw [Items.bytes] at h hsize ⊢
      rw [List.length_append, length_wordBytes] at hsize ⊢
      obtain ⟨hword, hrest⟩ := h.append
      obtain ⟨hgoes, hdepth⟩ := ih hrest hd (by omega)
      exact ⟨(goes_word hword.word (Or.inr rfl)).trans hgoes, hdepth⟩
  | prop nameoff data rest ih =>
      rw [Items.bytes] at h hsize ⊢
      rw [List.length_append] at hsize ⊢
      obtain ⟨hprop, hrest⟩ := h.append
      obtain ⟨hgoes, hdepth⟩ := ih (k := k.step dtb (.prop nameoff)) hrest hd
        (by rw [Track.step_prop_d]; omega)
      exact ⟨(goes_prop hprop (by omega)).trans hgoes, hdepth⟩
  | node name items rest ih ih' =>
      rw [Items.bytes] at h hsize ⊢
      rw [List.length_append, List.length_append, List.length_append, length_wordBytes] at hsize ⊢
      obtain ⟨hhead, hitems⟩ := h.append
      obtain ⟨hitems, hend⟩ := hitems.append
      obtain ⟨hend, hrest⟩ := hend.append
      have hlen := length_nodeHead name
      obtain ⟨hgoes₂, hdepth₂⟩ := ih (k := k.step dtb (.begin name)) hitems (Nat.succ_pos _)
        (by rw [Track.step_begin_d]; omega)
      rw [Track.step_begin_d] at hdepth₂
      have hgoes₃ := goes_endNode hend.word (Nat.lt_of_lt_of_eq (Nat.succ_pos k.d) hdepth₂.symm)
      obtain ⟨hgoes₄, hdepth₄⟩ := ih'
        (k := ((k.step dtb (.begin name)).run dtb items.tokens).step dtb .endNode) hrest
        (by rw [Track.step_endNode_d]; omega) (by rw [Track.step_endNode_d]; omega)
      rw [Track.step_endNode_d, hdepth₂, Nat.add_sub_cancel] at hdepth₄
      rw [Items.tokens, Track.run_cons, Track.run_append, Track.run_cons]
      exact ⟨(goes_begin hhead (by omega) (by omega)).trans (hgoes₂.trans (hgoes₃.trans hgoes₄)),
        hdepth₄⟩

/-- Behind the root the parser comes to the end token. -/
theorem goes_end {c : DtbCommon} (nops : Nat) (h : dtb.fdt.At pos (endBytes nops)) {turns : Nat}
    (hturns : (endBytes nops).length ≤ turns) : dtbParseLoop dtb turns (k.locals pos) c = some c := by
  induction nops generalizing pos turns with
  | zero =>
      rw [endBytes, length_wordBytes] at hturns
      obtain ⟨turns, rfl⟩ : ∃ t, turns = t + 1 := ⟨turns - 1, by omega⟩
      have htoken : ntoh32 dtb pos = 9 := h.word
      simp only [dtbParseLoop, Track.locals, htoken, if_neg (by decide : ¬(9 : BitVec 32) = 1),
        if_neg (by decide : ¬(9 : BitVec 32) = 3), if_neg (by decide : ¬(9 : BitVec 32) = 2), if_true]
  | succ nops ih =>
      rw [endBytes, List.length_append, length_wordBytes] at hturns
      obtain ⟨turns, rfl⟩ : ∃ t, turns = t + 1 := ⟨turns - 1, by omega⟩
      obtain ⟨htoken, hrest⟩ := h.append
      replace htoken : ntoh32 dtb pos = 4 := htoken.word
      have hnext : dtbParseLoop dtb turns (k.locals (pos + 4)) c = some c :=
        ih hrest (by omega)
      simp only [dtbParseLoop, htoken, Track.locals, if_neg (by decide : ¬(4 : BitVec 32) = 1),
        if_neg (by decide : ¬(4 : BitVec 32) = 3), if_neg (by decide : ¬(4 : BitVec 32) = 2),
        if_neg (by decide : ¬(4 : BitVec 32) = 9)]
      exact hnext

theorem goes_lead (lead : Nat) (h : dtb.fdt.At pos (leadBytes lead)) :
    dtb.Goes pos k (leadBytes lead).length k := by
  induction lead generalizing pos with
  | zero => exact goes_none
  | succ lead ih =>
      obtain ⟨hword, hrest⟩ := h.append
      rw [leadBytes, List.length_append, length_wordBytes]
      exact (goes_word hword.word (Or.inr rfl)).trans (ih hrest)

/-- The parser ends with what the tokens of the tree give. -/
theorem dtbParse_run {lead : Nat} {tree : Tree} (h : dtb.Holds lead tree) {turns : Nat}
    (hturns : (leadBytes lead ++ tree.bytes).length ≤ turns) (c : DtbCommon) :
    ∃ c', dtbParse dtb turns { c with writes := [] } = some c' ∧
      (Track.start.run dtb tree.tokens).Is c' := by
  have hlt := dtb.fdt.sizeDtStruct.isLt
  have hlen := length_nodeHead tree.name
  have hbytes : tree.bytes =
      nodeHead tree.name ++ (tree.items.bytes ++ (wordBytes FDT_END_NODE ++ endBytes tree.nops)) :=
    rfl
  rw [h.size] at hlt
  simp only [hbytes, List.length_append, length_wordBytes] at hlt hturns
  obtain ⟨hlead, htree⟩ := @Fdt.At.append dtb.fdt _ _ _ h.mem
  obtain ⟨hhead, hitems⟩ := Fdt.At.append (hbytes ▸ htree)
  obtain ⟨hitems, hend⟩ := hitems.append
  obtain ⟨hend, hrest⟩ := hend.append
  rw [length_wordBytes] at hrest
  have hgoes₀ := @goes_lead dtb Track.start _ lead hlead
  have hgoes₁ := @goes_begin dtb Track.start _ tree.name hhead (by decide) (by omega)
  have hitemsSize : 1 + tree.items.bytes.length < 2 ^ 32 := by omega
  obtain ⟨hgoes₂, hdepth₂⟩ := goes_items (k := Track.start.step dtb (.begin tree.name)) hitems
    Nat.one_pos hitemsSize
  have hgoes₃ := goes_endNode hend.word (Nat.lt_of_lt_of_eq Nat.one_pos hdepth₂.symm)
  have hstart : Track.start.Is { c with writes := [], exist := 0, ncpus := 0 } := ⟨rfl, rfl, rfl⟩
  have hroom : (leadBytes lead).length + ((nodeHead tree.name).length +
      (tree.items.bytes.length + 4)) + (endBytes tree.nops).length ≤ turns := by omega
  obtain ⟨c', turns', hc', hturns', heq⟩ :=
    (hgoes₀.trans (hgoes₁.trans (hgoes₂.trans hgoes₃))) hstart hroom
  refine ⟨c', ?_, ?_⟩
  · rw [dtbParse, if_neg fun hne => hne h.magic]
    refine heq.trans (goes_end tree.nops ?_ hturns')
    simp only [Nat.add_assoc] at hrest ⊢
    exact hrest
  · rw [Tree.tokens, Track.run_cons, Track.run_append, Track.run_cons, Track.run_nil]
    exact hc'

end

end Plo.Hal
