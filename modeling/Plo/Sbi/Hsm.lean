import Plo.Base.Run
import Plo.Sbi.Ipi

/-!
Starting harts. A hart waits until its state word says that a start is pending,
claims the start with a compare-and-swap, reads the two start parameters and jumps;
a call of `hsm_hartStart` by a running hart makes the start pending and writes the
parameters then. Every compare-and-swap, read and write is a step of its own, and
the steps of all harts are taken in any order.
-/
namespace Plo.Sbi

/-- The values of the state word that occur: no hart is stopped or suspended again. -/
inductive HartState
  | started
  | stopped
  | startPending
  deriving DecidableEq

/-- Where a hart is: the steps of `hsm_hartWait` and `hsm_hartStartJump` before it
runs in S-mode, and those of a call of `hsm_hartStart` it makes there. -/
inductive Pc
  | wait
  | startJump
  | params (nextArg1 nextAddr : Option (BitVec 64))
  | smode
  | writeAddr (hartid : Nat) (startAddr opaque_ : BitVec 64)
  | writeArg1 (hartid : Nat) (opaque_ : BitVec 64)
  | ipiSend (hartid : Nat)
  | halted
  deriving DecidableEq

/-- A call of `hsm_hartStart` and the hart that made it. -/
structure StartCall where
  caller : Nat
  startAddr : BitVec 64
  opaque_ : BitVec 64
  deriving DecidableEq

/-- `sbi_perHartData_t`, where the hart is, the parameters it jumped with and what
its last call returned; and the call that moved it out of the stopped state, with
the number of calls for it that returned success. -/
structure HsmHart where
  state : HartState
  nextArg1 : BitVec 64
  nextAddr : BitVec 64
  pc : Pc
  jumped : Option (BitVec 64 × BitVec 64)
  ret : Option Int
  call : Option StartCall
  successes : Nat

/-- After `sbi_scratchInit` and `hsm_init`: the boot hart starts itself. -/
def hsmInit (boot : Nat) (payload fdt : BitVec 64) (h : Nat) : HsmHart :=
  { state := if h = boot then .startPending else .stopped
    nextArg1 := fdt
    nextAddr := payload
    pc := if h = boot then .startJump else .wait
    jumped := none
    ret := none
    call := none
    successes := 0 }

/-- One hart of a family changed. -/
def change {α : Type} (s : Nat → α) (h : Nat) (f : α → α) : Nat → α :=
  Function.update s h (f (s h))

theorem change_self {α : Type} (s : Nat → α) (h : Nat) (f : α → α) :
    change s h f h = f (s h) :=
  Function.update_self _ _ _

theorem change_of_ne {α : Type} (s : Nat → α) {h k : Nat} (f : α → α) (hk : k ≠ h) :
    change s h f k = s k :=
  Function.update_of_ne hk _ _

/-- A change does not show where it does not show in one hart. -/
theorem change_same {α β : Type} (s : Nat → α) (h k : Nat) {f : α → α} {p : α → β}
    (hf : ∀ d, p (f d) = p d) : p (change s h f k) = p (s k) := by
  by_cases hk : k = h
  · rw [hk, change_self, hf]
  · rw [change_of_ne s f hk]

/-- A step of a call: where the caller is then, and the result when the call ends. -/
def HsmHart.goto (pc : Pc) (ret : Option Int) (d : HsmHart) : HsmHart :=
  { d with pc := pc, ret := ret }

inductive HsmStep
  | call (me hartid : Nat) (startAddr opaque_ : BitVec 64)
  | next (me : Nat)
  | readArg1 (me : Nat)
  | readAddr (me : Nat)

/-- `hsm_hartStart` up to its compare-and-swap. -/
def hartStart (hartCount : Nat) (s : Nat → HsmHart) (me hartid : Nat)
    (startAddr opaque_ : BitVec 64) : Nat → HsmHart :=
  if hartid ≥ hartCount then
    change s me fun d => { d with ret := some SBI_ERR_INVALID_PARAM }
  else
    match (s hartid).state with
    | .started => change s me fun d => { d with ret := some SBI_ERR_ALREADY_AVAILABLE }
    | .startPending => change s me fun d => { d with ret := some SBI_ERR_INVALID_PARAM }
    | .stopped =>
      change (change s hartid fun d =>
          { d with state := .startPending, call := some ⟨me, startAddr, opaque_⟩ })
        me (HsmHart.goto (.writeAddr hartid startAddr opaque_) none)

/-- A step of a hart that is not a choice: the rest of `hsm_hartStart`, the poll of
`hsm_hartWait`, and the compare-and-swap and the jump of `hsm_hartStartJump`. -/
def hsmNext (s : Nat → HsmHart) (me : Nat) : Nat → HsmHart :=
  match (s me).pc with
  | .wait =>
    if (s me).state = .startPending then change s me fun d => { d with pc := .startJump } else s
  | .startJump =>
    if (s me).state = .startPending then
      change s me fun d => { d with state := .started, pc := .params none none }
    else change s me fun d => { d with pc := .halted }
  | .params (some nextArg1) (some nextAddr) =>
    change s me fun d => { d with pc := .smode, jumped := some (nextAddr, nextArg1) }
  | .writeAddr hartid startAddr opaque_ =>
    change (change s hartid fun d => { d with nextAddr := startAddr })
      me (HsmHart.goto (.writeArg1 hartid opaque_) none)
  | .writeArg1 hartid opaque_ =>
    change (change s hartid fun d => { d with nextArg1 := opaque_ })
      me (HsmHart.goto (.ipiSend hartid) none)
  | .ipiSend hartid =>
    change (change s hartid fun d => { d with successes := d.successes + 1 })
      me (HsmHart.goto .smode (some SBI_SUCCESS))
  | _ => s

/-- The two parameters are read in either order, as the arguments of one call. -/
def hsmStep (hartCount : Nat) (s : Nat → HsmHart) : HsmStep → Nat → HsmHart
  | .call me hartid startAddr opaque_ =>
    if (s me).pc = .smode then hartStart hartCount s me hartid startAddr opaque_ else s
  | .next me => hsmNext s me
  | .readArg1 me =>
    match (s me).pc with
    | .params none nextAddr =>
      change s me fun d => { d with pc := .params (some d.nextArg1) nextAddr }
    | _ => s
  | .readAddr me =>
    match (s me).pc with
    | .params nextArg1 none =>
      change s me fun d => { d with pc := .params nextArg1 (some d.nextAddr) }
    | _ => s

end Plo.Sbi
