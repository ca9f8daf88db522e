import Plo.Sbi.Hsm

/-!
How the harts come up. The hart that takes `hartLock` first clears the variables of
`.bss` while the others wait for `bootReady`; then each hart marks itself in the mask
and prepares its own data, the boot hart waits in `hsm_init` until all of them have been
counted, and the harts go on as `hsm_hartWait` and `hsm_hartStartJump` have it. The
steps of all harts, one access to a shared variable each, are taken in any order.
-/
namespace Plo.Sbi

def MAX_HART_COUNT : Nat := 8

/-- The variables of `.bss` that are used here. -/
inductive BssVar
  | bootHartId
  | sbi_hartMask
  | hartsStarted
  | hartCount
  | perHartData (hartid : Fin MAX_HART_COUNT)
  deriving DecidableEq

/-- The harts are those the device tree has, numbered from zero; `.bss` is cleared in
the order of the addresses. -/
structure Platform where
  hartCount : Nat
  payload : BitVec 64
  fdt : BitVec 64
  bss : List BssVar
  hartCount_le : hartCount ≤ MAX_HART_COUNT
  bss_all : ∀ v, v ∈ bss

/-- Where a hart is: in `_start`, in `entry` and `sbi_initCold` or `sbi_initWarm`, in
`hsm_init`, or where its `HsmHart` says. -/
inductive BootPc
  | reset
  | clearBss (left : List BssVar)
  | setBootHartId
  | setBootReady
  | waitBootHart
  | markHart
  | scratchState
  | scratchAddr
  | scratchArg1
  | entry
  | initCold
  | hsmInit
  | countCold
  | setPending
  | barrier
  | devices
  | countWarm
  | hsm

/-- The shared variables, and for each hart where it is and its `sbi_perHartData_t`. -/
structure Boot where
  hartLock : BitVec 32
  bootReady : BitVec 32
  bootHartId : BitVec 32
  sbi_hartMask : BitVec 64
  hartsStarted : BitVec 32
  hartCount : BitVec 32
  pc : Nat → BootPc
  hsm : Nat → HsmHart

/-- What memory holds in `.bss` at reset is not known. -/
structure Garbage where
  bootHartId : BitVec 32
  sbi_hartMask : BitVec 64
  hartsStarted : BitVec 32
  hartCount : BitVec 32
  state : Nat → HartState
  nextArg1 : Nat → BitVec 64
  nextAddr : Nat → BitVec 64

/-- `hartLock` and `bootReady` are part of the image. -/
def bootInit (g : Garbage) : Boot where
  hartLock := 0
  bootReady := 0
  bootHartId := g.bootHartId
  sbi_hartMask := g.sbi_hartMask
  hartsStarted := g.hartsStarted
  hartCount := g.hartCount
  pc := fun _ => .reset
  hsm := fun h => ⟨g.state h, g.nextArg1 h, g.nextAddr h, .wait, none, none, none, 0⟩

def Boot.goto (s : Boot) (me : Nat) (pc : BootPc) : Boot :=
  { s with pc := Function.update s.pc me pc }

def Boot.setData (s : Boot) (h : Nat) (f : HsmHart → HsmHart) : Boot :=
  { s with hsm := change s.hsm h f }

/-- A variable is cleared; a state word of zero is the started state. -/
def Boot.clear (s : Boot) : BssVar → Boot
  | .bootHartId => { s with bootHartId := 0 }
  | .sbi_hartMask => { s with sbi_hartMask := 0 }
  | .hartsStarted => { s with hartsStarted := 0 }
  | .hartCount => { s with hartCount := 0 }
  | .perHartData h => s.setData h fun d => { d with state := .started, nextArg1 := 0, nextAddr := 0 }

/-- The next step of a hart up to the end of `hsm_init`. -/
def bootNext (P : Platform) (s : Boot) (me : Nat) : Boot :=
  match s.pc me with
  | .reset =>
    { s with hartLock := s.hartLock + 1 }.goto me
      (if s.hartLock ≠ 0 then .waitBootHart else .clearBss P.bss)
  | .clearBss (v :: left) => (s.clear v).goto me (.clearBss left)
  | .clearBss [] => s.goto me .setBootHartId
  | .setBootHartId => { s with bootHartId := BitVec.ofNat 32 me }.goto me .setBootReady
  | .setBootReady => { s with bootReady := s.bootReady + 1 }.goto me .markHart
  | .waitBootHart => if s.bootReady = 0 then s else s.goto me .markHart
  | .markHart => { s with sbi_hartMask := s.sbi_hartMask ||| 1#64 <<< me }.goto me .scratchState
  | .scratchState => (s.setData me fun d => { d with state := .stopped }).goto me .scratchAddr
  | .scratchAddr => (s.setData me fun d => { d with nextAddr := P.payload }).goto me .scratchArg1
  | .scratchArg1 => (s.setData me fun d => { d with nextArg1 := P.fdt }).goto me .entry
  | .entry =>
    s.goto me (if BitVec.ofNat 32 me = s.bootHartId then .initCold else .hsmInit)
  | .initCold => { s with hartCount := BitVec.ofNat 32 P.hartCount }.goto me .hsmInit
  | .hsmInit =>
    s.goto me (if BitVec.ofNat 32 me = s.bootHartId then .countCold else .countWarm)
  | .countCold => { s with hartsStarted := s.hartsStarted + 1 }.goto me .setPending
  | .setPending => (s.setData me fun d => { d with state := .startPending }).goto me .barrier
  | .barrier => if s.hartsStarted < s.hartCount then s else s.goto me .devices
  | .devices => (s.setData me fun d => { d with pc := .startJump }).goto me .hsm
  | .countWarm => { s with hartsStarted := s.hartsStarted + 1 }.goto me .hsm
  | .hsm => s

/-- The hart that takes the step. -/
def HsmStep.me : HsmStep → Nat
  | .call me _ _ _ | .next me | .readArg1 me | .readAddr me => me

inductive BootStep
  | boot (me : Nat)
  | hsm (i : HsmStep)

def BootStep.me : BootStep → Nat
  | .boot me => me
  | .hsm i => i.me

def bootStep (P : Platform) (s : Boot) : BootStep → Boot
  | .boot me => bootNext P s me
  | .hsm i =>
    match s.pc i.me with
    | .hsm => { s with hsm := hsmStep s.hartCount.toNat s.hsm i }
    | _ => s

end Plo.Sbi
