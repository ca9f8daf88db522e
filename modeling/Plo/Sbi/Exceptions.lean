import Mathlib.Logic.Function.Basic
import Plo.Lib.Types

/-!
Illegal instructions. The handler emulates the instructions that read a counter and
passes other traps on to S-mode; what it cannot make sense of stops the hart. The
registers of the interrupted program are saved in memory, in front of the machine's
own ones, and are addressed from there by their numbers.
-/
namespace Plo.Sbi

def CSR_FFLAGS : BitVec 32 := 0x001
def CSR_FRM : BitVec 32 := 0x002
def CSR_FCSR : BitVec 32 := 0x003
def CSR_CYCLE : BitVec 32 := 0xc00
def CSR_TIME : BitVec 32 := 0xc01
def CSR_INSTRET : BitVec 32 := 0xc02

def MSTATUS_MPP_SHIFT : Nat := 11
def MSTATUS_SIE : BitVec 64 := 1 <<< 1
def MSTATUS_SPIE : BitVec 64 := 1 <<< 5
def MSTATUS_SPP : BitVec 64 := 1 <<< 8
def MSTATUS_MPP : BitVec 64 := 3 <<< MSTATUS_MPP_SHIFT

def PRV_U : BitVec 64 := 0
def PRV_S : BitVec 64 := 1
def PRV_M : BitVec 64 := 3

def MCAUSE_ILLEGAL : Nat := 2

/-- `exc_context_t`, as the words from its address on: the registers from `x1` to `x31`,
and behind them those of the machine. -/
structure ExcContext where
  word : Nat → BitVec 64

namespace ExcContext
variable (ctx : ExcContext)

def mstatus : BitVec 64 := ctx.word 31
def mepc : BitVec 64 := ctx.word 32
def mcause : BitVec 64 := ctx.word 33
def mtval : BitVec 64 := ctx.word 34

def set (i : Nat) (val : BitVec 64) : ExcContext := ⟨Function.update ctx.word i val⟩

def setMstatus (val : BitVec 64) : ExcContext := ctx.set 31 val
def setMepc (val : BitVec 64) : ExcContext := ctx.set 32 val

end ExcContext

/-- The saved context and the registers of S-mode for a trap. -/
structure TrapState where
  ctx : ExcContext
  sepc : BitVec 64
  scause : BitVec 64
  stval : BitVec 64
  stvec : BitVec 64

/-- What the handler reads: the counters, and the memory as the interrupted program sees
it, by half-words. -/
structure Surroundings where
  time : BitVec 64
  minstret : BitVec 64
  mcycle : BitVec 64
  lhu : BitVec 64 → BitVec 16

/-- No value stands for `-1`. -/
def csrEmulateRead (env : Surroundings) (csr : BitVec 32) : Option (BitVec 64) :=
  if csr = CSR_TIME then some env.time
  else if csr = CSR_INSTRET then some env.minstret
  else if csr = CSR_CYCLE then some env.mcycle
  else none

def csrEmulateWrite (_csr : BitVec 32) (_val : BitVec 64) : Int := -1

def getRegval (regNum : Nat) (ctx : ExcContext) : BitVec 64 :=
  if regNum = 0 then 0 else ctx.word (regNum - 1)

def setRegval (regNum : Nat) (regVal : BitVec 64) (ctx : ExcContext) : ExcContext :=
  if regNum ≠ 0 then ctx.set (regNum - 1) regVal else ctx

def prevMode (ctx : ExcContext) : BitVec 64 := (ctx.mstatus &&& MSTATUS_MPP) >>> MSTATUS_MPP_SHIFT

def exceptionsRedirect (insn : BitVec 64) (s : TrapState) : TrapState :=
  let mstatus := s.ctx.mstatus &&& ~~~(MSTATUS_MPP ||| MSTATUS_SPP ||| MSTATUS_SPIE)
  let mstatus := mstatus ||| (PRV_S <<< MSTATUS_MPP_SHIFT)
  let mstatus := if prevMode s.ctx = PRV_S then mstatus ||| MSTATUS_SPP else mstatus
  let mstatus := if s.ctx.mstatus &&& MSTATUS_SIE ≠ 0 then mstatus ||| MSTATUS_SPIE else mstatus
  let mstatus := mstatus &&& ~~~MSTATUS_SIE
  { s with
    sepc := s.ctx.mepc
    scause := s.ctx.mcause
    stval := insn
    ctx := (s.ctx.setMepc s.stvec).setMstatus mstatus }

variable (env : Surroundings)

/-- The new value of the register and whether it is written, for the instructions that
access one; `rs1` is the number of a register or the value itself. -/
def csrOperation (funct3 : Nat) (csrVal rs1Val : BitVec 64) (rs1 : BitVec 32) :
    Option (BitVec 64 × BitVec 32) :=
  match funct3 with
  | 1 => some (rs1Val, 1)
  | 2 => some (csrVal ||| rs1Val, rs1)
  | 3 => some (csrVal &&& ~~~rs1Val, rs1)
  | 5 => some (rs1.setWidth 64, 1)
  | 6 => some (csrVal ||| rs1.setWidth 64, rs1)
  | 7 => some (csrVal &&& (~~~rs1).setWidth 64, rs1)
  | _ => none

/-- `exceptions_illSystem`: whether the trap is handled, and no value when the hart is
halted by `exceptions_defaultHandler`. -/
def exceptionsIllSystem (s : TrapState) : Option (Bool × TrapState) :=
  let insn := s.ctx.mtval
  let csr : BitVec 32 := ((insn >>> 20) &&& 0xfff).setWidth 32
  let rs1 : BitVec 32 := ((insn >>> 15) &&& 0x1f).setWidth 32
  let rs1Val := getRegval rs1.toNat s.ctx
  let rd : BitVec 32 := ((insn >>> 7) &&& 0x1f).setWidth 32
  if prevMode s.ctx = PRV_M then none
  else if csr = CSR_FFLAGS ∨ csr = CSR_FRM ∨ csr = CSR_FCSR then some (false, s)
  else
    match csrEmulateRead env csr with
    | none => none
    | some csrVal =>
      match csrOperation ((insn >>> 12) &&& 0x7).toNat csrVal rs1Val rs1 with
      | none => none
      | some (newCsrVal, write) =>
        if write ≠ 0 ∧ csrEmulateWrite csr newCsrVal < 0 then none
        else
          let ctx := setRegval rd.toNat csrVal s.ctx
          some (true, { s with ctx := ctx.setMepc (ctx.mepc + 4) })

/-- The instruction when it is not in `mtval`, from one or two half-words. -/
def loadInsn (mepc : BitVec 64) : BitVec 64 :=
  let insn := (env.lhu mepc).setWidth 64
  if insn &&& 3 = 3 then ((env.lhu (mepc + 2)).setWidth 64 <<< 16) ||| insn else insn

/-- The first part of `exceptions_illegalHandler`: a word of four bytes with the opcode
SYSTEM may be emulated. -/
def tryIllSystem (s : TrapState) : Option (Bool × TrapState) :=
  let insn := s.ctx.mtval
  if insn &&& 3 = 3 ∧ (insn &&& 0x7c) >>> 2 = 0x1c then exceptionsIllSystem env s
  else some (false, s)

def exceptionsIllegalHandler (s : TrapState) : Option TrapState :=
  let insn := s.ctx.mtval
  match tryIllSystem env s with
  | none => none
  | some (true, s) => some s
  | some (false, s) =>
    if prevMode s.ctx = PRV_M then none
    else some (exceptionsRedirect (if insn = 0 then loadInsn env s.ctx.mepc else insn) s)

def exceptionsDispatch (n : Nat) (s : TrapState) : Option TrapState :=
  if n = MCAUSE_ILLEGAL then exceptionsIllegalHandler env s else none

end Plo.Sbi
