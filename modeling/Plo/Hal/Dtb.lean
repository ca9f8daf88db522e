import Plo.Base.Bytes
import Plo.Lib.Strings
import Plo.Sbi.Fdt

/-!
The parser of the device tree of riscv64. It goes over the tokens of the structure block and
keeps a state instead of the path to a node. Strings and data are kept by their address, and the
indexes at which the array of CPUs is written are recorded.
-/
namespace Plo.Hal
open Lib
open Sbi (ceil4)

/-- The states of `dtb_parse`. -/
inductive DtbState
  | idle | system | cpu | cpuInterruptController | memory | soc | socInterruptController
  deriving DecidableEq

/-- An entry of `dtb_common.cpus`. -/
structure DtbCpu where
  compatible : Nat
  mmu : Nat
  isa : Nat
  clock : BitVec 32

/-- `dtb_common`. -/
structure DtbCommon where
  model : Nat
  compatible : Nat
  ncpus : Nat
  cpus : Nat → DtbCpu
  nreg : Nat
  reg : Nat
  exist : Int
  writes : List Nat

/-- The memory, and the address of the device tree. -/
structure Dtb where
  mem : Nat → UInt8
  fdth : Nat

section
variable (dtb : Dtb)

/-- `ntoh32` of the word at an address. -/
def ntoh32 (pos : Nat) : BitVec 32 := Endian.big.word fun k => dtb.mem (pos + k)

def dtbGetString (i : BitVec 32) : Nat := dtb.fdth + (ntoh32 dtb (dtb.fdth + 12)).toNat + i.toNat

/-- The name of a property is this constant. -/
def dtbStringIs (si : BitVec 32) (s : List UInt8) : Bool :=
  strcmp (s.length + 1) (fun k => dtb.mem (dtbGetString dtb si + k)) (constant s) = 0

def dtbParseSystem (pos : Nat) (si : BitVec 32) (c : DtbCommon) : DtbCommon :=
  if dtbStringIs dtb si "model".toUTF8.toList then { c with model := pos }
  else if dtbStringIs dtb si "compatible".toUTF8.toList then { c with compatible := pos }
  else c

/-- `dtb_common.cpus[dtb_common.ncpus]` is changed. -/
def DtbCommon.setCpu (c : DtbCommon) (f : DtbCpu → DtbCpu) : DtbCommon :=
  { c with
    cpus := Function.update c.cpus c.ncpus (f (c.cpus c.ncpus))
    writes := c.writes ++ [c.ncpus] }

def dtbParseCPU (pos : Nat) (si : BitVec 32) (c : DtbCommon) : DtbCommon :=
  if dtbStringIs dtb si "compatible".toUTF8.toList then c.setCpu ({ · with compatible := pos })
  else if dtbStringIs dtb si "riscv,isa".toUTF8.toList then c.setCpu ({ · with isa := pos })
  else if dtbStringIs dtb si "mmu-type".toUTF8.toList then c.setCpu ({ · with mmu := pos })
  else if dtbStringIs dtb si "clock-frequency".toUTF8.toList then
    c.setCpu ({ · with clock := ntoh32 dtb pos })
  else c

def dtbParseSOCInterruptController (c : DtbCommon) : DtbCommon := { c with exist := 1 }

def dtbParseMemory (pos : Nat) (si : BitVec 32) (l : Nat) (c : DtbCommon) : DtbCommon :=
  if dtbStringIs dtb si "reg".toUTF8.toList then { c with nreg := l % 2 ^ 32 / 16, reg := pos } else c

/-- The switch over the state for a property; `dtb_parseInterruptController` does nothing. -/
def dtbProp (state : DtbState) (pos : Nat) (si : BitVec 32) (l : Nat) (c : DtbCommon) : DtbCommon :=
  match state with
  | .system => dtbParseSystem dtb pos si c
  | .memory => dtbParseMemory dtb pos si l c
  | .cpu => dtbParseCPU dtb pos si c
  | .socInterruptController => dtbParseSOCInterruptController c
  | _ => c

/-- `hal_strncmp` with the string at an address. -/
def dtbStarts (pos : Nat) (s : List UInt8) (n : Nat) : Bool :=
  strncmp (fun k => dtb.mem (pos + k)) (constant s) n = 0

/-- The state behind the beginning of a node whose name is at an address. -/
def dtbBegin (pos : Nat) (d : BitVec 32) (state : DtbState) : DtbState :=
  if d = 0 ∧ dtb.mem pos = 0 then .system
  else if d = 1 ∧ dtbStarts dtb pos "memory@".toUTF8.toList 7 then .memory
  else if d = 2 ∧ dtbStarts dtb pos "cpu@".toUTF8.toList 4 then .cpu
  else if state = .cpu ∧ dtbStarts dtb pos "interrupt-controller".toUTF8.toList 20 then
    .cpuInterruptController
  else if d = 1 ∧ dtbStarts dtb pos "soc".toUTF8.toList 3 then .soc
  else if state = .soc ∧ (dtbStarts dtb pos "interrupt-controller@".toUTF8.toList 21 ∨
      dtbStarts dtb pos "plic@".toUTF8.toList 5) then .socInterruptController
  else state

/-- The state behind the end of a node. -/
def dtbEnd : DtbState → DtbState
  | .cpu => .system
  | .memory => .system
  | .cpuInterruptController => .cpu
  | .socInterruptController => .soc
  | state => state

/-- `hal_strlen` of a string of less than `n` bytes. -/
def strlen : Nat → Nat → Option Nat
  | 0, _ => none
  | n + 1, p => if dtb.mem p = 0 then some 0 else (strlen n (p + 1)).map (· + 1)

/-- The locals of `dtb_parse`. -/
structure DtbLocals where
  pos : Nat
  d : BitVec 32
  state : DtbState

/-- The loop of `dtb_parse`, for as many turns. -/
def dtbParseLoop : Nat → DtbLocals → DtbCommon → Option DtbCommon
  | 0, _, _ => none
  | turns + 1, s, c =>
    let token := ntoh32 dtb s.pos
    let pos := s.pos + 4
    if token = 1 then
      (strlen dtb turns pos).bind fun len =>
        dtbParseLoop turns
          { pos := pos + ceil4 len, d := s.d + 1, state := dtbBegin dtb pos s.d s.state } c
    else if token = 3 then
      let l := ceil4 (ntoh32 dtb pos).toNat
      let si := ntoh32 dtb (pos + 4)
      let pos := pos + 8
      dtbParseLoop turns { s with pos := pos + l } (dtbProp dtb s.state pos si l c)
    else if token = 2 then
      dtbParseLoop turns { pos := pos, d := s.d - 1, state := dtbEnd s.state }
        (if s.state = .cpu then { c with ncpus := c.ncpus + 1 } else c)
    else if token = 9 then some c
    else dtbParseLoop turns { s with pos := pos } c

/-- `dtb_parse`. -/
def dtbParse (turns : Nat) (c : DtbCommon) : Option DtbCommon :=
  if ntoh32 dtb dtb.fdth ≠ 0xd00dfeed then some c
  else
    dtbParseLoop dtb turns
      { pos := dtb.fdth + (ntoh32 dtb (dtb.fdth + 8)).toNat, d := 0, state := .idle }
      { c with exist := 0, ncpus := 0 }

end

/-- `dtb_getPLIC`. -/
def dtbGetPLIC (c : DtbCommon) : Int := c.exist

end Plo.Hal
