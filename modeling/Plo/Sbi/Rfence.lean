import Plo.Sbi.Ipi

/-!
Remote fences. A call fills in a parameter block on its own stack and posts a task
with a pointer to that block to every hart of its mask; each of them reads the block
when it comes to run the task. Every turn of a loop is a step of its own, and the
steps of all harts are taken in any order. A post is one step, since it is made under
the lock of the target, and so no post is made while the target runs its tasks.
-/
namespace Plo.Sbi

def PAGE_SIZE : BitVec 64 := 0x1000
def SFENCE_VMA_FLUSH_ALL : BitVec 64 := -1

/-- `sfenceVmaInfo_t`. -/
structure SfenceVmaInfo where
  start : BitVec 64
  size : BitVec 64
  asid : BitVec 32
  deriving DecidableEq

/-- What a hart issues; no address stands for all addresses, no ASID for all of them. -/
inductive Fence
  | fenceI
  | sfenceVma (addr : Option (BitVec 64)) (asid : Option (BitVec 32))
  deriving DecidableEq

inductive TaskHandler
  | fencei
  | sfenceVma
  | sfenceVmaAsid
  | sendIpi
  deriving DecidableEq

/-- Where a running handler is: before its test, or at a page of its loop. -/
inductive Point
  | entry
  | page (i : BitVec 64)
  deriving DecidableEq

def SfenceVmaInfo.FlushAll (info : SfenceVmaInfo) : Prop :=
  (info.start = 0 ∧ info.size = 0) ∨ info.size = SFENCE_VMA_FLUSH_ALL

instance (info : SfenceVmaInfo) : Decidable info.FlushAll :=
  inferInstanceAs (Decidable ((info.start = 0 ∧ info.size = 0) ∨ info.size = SFENCE_VMA_FLUSH_ALL))

/-- The two handlers that read the block: what is issued, and where it goes on. -/
def sfenceVmaNext (asid : Option (BitVec 32)) (info : SfenceVmaInfo) :
    Point → List Fence × Option Point
  | .entry => if info.FlushAll then ([.sfenceVma none asid], none) else ([], some (.page 0))
  | .page i =>
    if i < info.size then ([.sfenceVma (some (info.start + i)) asid], some (.page (i + PAGE_SIZE)))
    else ([], none)

/-- A step of a handler; `none` when it reads through NULL. -/
def TaskHandler.next : TaskHandler → Option SfenceVmaInfo → Point → Option (List Fence × Option Point)
  | .fencei, _, _ => some ([.fenceI], none)
  | .sfenceVma, some info, point => some (sfenceVmaNext none info point)
  | .sfenceVmaAsid, some info, point => some (sfenceVmaNext (some info.asid) info point)
  | .sendIpi, _, _ => some ([], none)
  | _, none, _ => none

/-- A task points to nothing or to the block of a hart. -/
abbrev Task := Post TaskHandler (Option Nat)

/-- A task whose handler is running, or has returned, and what it has issued. -/
structure Execution where
  task : Task
  point : Option Point
  issued : List Fence

def Execution.start (task : Task) : Execution := ⟨task, task.handler.map fun _ => .entry, []⟩

def Execution.next (info : Nat → SfenceVmaInfo) (e : Execution) : Option Execution :=
  match e.task.handler, e.point with
  | some handler, some point => do
    let (fences, point) ← handler.next (e.task.data.map info) point
    some { e with point := point, issued := e.issued ++ fences }
  | _, _ => some e

/-- Where a hart is: outside, in `sbi_ipiSendMany` for the hart `i`, or in
`sbi_ipiHandler`. -/
inductive Activity
  | idle
  | sending (task : Task) (hartMask : BitVec 64) (i : Nat)
  | sendingSelf (e : Execution) (hartMask : BitVec 64) (i : Nat)
  | entered
  | handling
  | executing (e : Execution)

/-- A call, numbered by its place: its handler, its block and the harts it is for. -/
structure Call where
  handler : Option TaskHandler
  info : SfenceVmaInfo
  hartMask : BitVec 64

/-- A task that a hart has run. -/
structure Executed where
  hart : Nat
  number : Nat
  issued : List Fence
  deriving DecidableEq

structure Machine where
  harts : Nat → Hart TaskHandler (Option Nat)
  msip : Nat → Bool
  info : Nat → SfenceVmaInfo
  activity : Nat → Activity
  calls : List Call
  returned : List (Nat × Int)
  log : List Executed

def Machine.init (pools : Nat → Fin MAX_TASK_COUNT → Task) (info : Nat → SfenceVmaInfo) : Machine :=
  ⟨fun h => Hart.init (pools h), fun _ => false, info, fun _ => .idle, [], [], []⟩

namespace Machine

def goto (s : Machine) (me : Nat) (activity : Activity) : Machine :=
  { s with activity := Function.update s.activity me activity }

def setInfo (s : Machine) (me : Nat) (info : SfenceVmaInfo) : Machine :=
  { s with info := Function.update s.info me info }

def call (s : Machine) (c : Call) : Machine := { s with calls := s.calls ++ [c] }

def return_ (s : Machine) (number : Nat) (error : Int) : Machine :=
  { s with returned := s.returned ++ [(number, error)] }

def record (s : Machine) (x : Executed) : Machine := { s with log := s.log ++ [x] }

/-- A hart that has accepted a post, and its interrupt. -/
def posted (s : Machine) (hartid : Nat) (hart : Hart TaskHandler (Option Nat)) : Machine :=
  { s with
    harts := Function.update s.harts hartid hart
    msip := Function.update s.msip hartid true }

/-- A hart that runs a task it has taken. -/
def took (s : Machine) (me : Nat) (hart : Hart TaskHandler (Option Nat)) (task : Task) : Machine :=
  { s with
    harts := Function.update s.harts me hart
    activity := Function.update s.activity me (.executing (.start task)) }

/-- The hart holds its own lock. -/
def locked (s : Machine) (hartid : Nat) : Bool :=
  match s.activity hartid with
  | .handling | .executing _ => true
  | _ => false

/-- `sbi_ipiSendMany` up to its loop, in a hart whose block is filled in. -/
def ipiSendMany (hartCount : Nat) (sbiHartMask : BitVec 64) (s : Machine) (me : Nat)
    (hartMask hartMaskBase : BitVec 64) (handler : TaskHandler) (data : Option Nat) : Machine :=
  let number := s.calls.length
  if hartMaskBase.toNat > hartCount then
    (s.call ⟨some handler, s.info me, 0⟩).return_ number SBI_ERR_INVALID_PARAM
  else
    let hartMask := (hartMask <<< hartMaskBase.toNat) &&& sbiHartMask
    let s := s.call ⟨some handler, s.info me, hartMask⟩
    if hartMask = 0 then s.return_ number SBI_ERR_INVALID_PARAM
    else s.goto me (.sending ⟨number, some handler, data⟩ hartMask 0)

/-- `ecall_rfence_handler`. -/
def ecallRfence (hartCount : Nat) (sbiHartMask : BitVec 64) (s : Machine) (me : Nat)
    (a0 a1 a2 a3 a4 : BitVec 64) (fid : Int) : Machine :=
  let info := s.info me
  match fid with
  | 0 => s.ipiSendMany hartCount sbiHartMask me a0 a1 .fencei none
  | 1 =>
    (s.setInfo me { info with start := a2, size := a3 }).ipiSendMany hartCount sbiHartMask me a0 a1
      .sfenceVma (some me)
  | 2 =>
    (s.setInfo me ⟨a2, a3, a4.setWidth 32⟩).ipiSendMany hartCount sbiHartMask me a0 a1
      .sfenceVmaAsid (some me)
  | _ => (s.call ⟨none, info, 0⟩).return_ s.calls.length SBI_ERR_NOT_SUPPORTED

/-- A turn of the loop of `sbi_ipiSendMany`. The mask is tested in `int`, which has a
bit for every hart; a post to a hart that holds its lock waits, and one that is to be
retried is made again in the next step. -/
def sendNext (hartCount : Nat) (s : Machine) (me : Nat) (task : Task) (hartMask : BitVec 64)
    (i : Nat) : Option Machine :=
  if i < hartCount then
    if hartMask.getLsbD i then
      if i = me then some (s.goto me (.sendingSelf (.start task) hartMask i))
      else if s.locked i then some s
      else do
        let (hart, ret) ← (s.harts i).send task
        if ret = SBI_IPI_RETRY then some s
        else if ret < 0 then some ((s.return_ task.number ret).goto me .idle)
        else some ((s.posted i hart).goto me (.sending task hartMask (i + 1)))
    else some (s.goto me (.sending task hartMask (i + 1)))
  else some ((s.return_ task.number SBI_SUCCESS).goto me .idle)

/-- A step of `sbi_ipiHandler` under its lock, between two tasks. The node is freed
before its task is run, which nobody can see before the lock is cleared. -/
def handlerNext (s : Machine) (me : Nat) : Option Machine :=
  match (s.harts me).links.tasks with
  | none => some (s.goto me .idle)
  | some node => do
    let (hart, task) ← (s.harts me).take node
    some (s.took me hart task)

/-- The next step of a hart; outside, it takes its interrupt. -/
def next (hartCount : Nat) (s : Machine) (me : Nat) : Option Machine :=
  match s.activity me with
  | .idle =>
    some (if s.msip me then
      { s.goto me .entered with msip := Function.update s.msip me false } else s)
  | .sending task hartMask i => s.sendNext hartCount me task hartMask i
  | .sendingSelf e hartMask i =>
    match e.point with
    | none =>
      some ((s.record ⟨me, e.task.number, e.issued⟩).goto me (.sending e.task hartMask (i + 1)))
    | some _ => do
      let e ← e.next s.info
      some (s.goto me (.sendingSelf e hartMask i))
  | .entered => some (s.goto me .handling)
  | .handling => s.handlerNext me
  | .executing e =>
    match e.point with
    | none => some ((s.record ⟨me, e.task.number, e.issued⟩).goto me .handling)
    | some _ => do
      let e ← e.next s.info
      some (s.goto me (.executing e))

/-- The post of `hsm_hartStart`, which has no handler. -/
def wake (s : Machine) (me hartid : Nat) : Option Machine :=
  if hartid = me ∨ s.locked hartid then some s
  else do
    let (hart, ret) ← (s.harts hartid).send ⟨s.calls.length, none, none⟩
    let s := s.call ⟨none, s.info me, 0⟩
    some (if ret = SBI_SUCCESS then s.posted hartid hart else s)

end Machine

inductive RfenceStep
  | rfence (me : Nat) (a0 a1 a2 a3 a4 : BitVec 64) (fid : Int)
  | sendIpi (me : Nat) (a0 a1 : BitVec 64)
  | wake (me hartid : Nat)
  | reuse (me : Nat) (info : SfenceVmaInfo)
  | next (me : Nat)

def Activity.isIdle : Activity → Bool
  | .idle => true
  | _ => false

/-- The hart is in a call, whose block is live. -/
def Activity.inCall : Activity → Bool
  | .sending .. | .sendingSelf .. => true
  | _ => false

/-- Calls are made from outside. The stack of a hart that is in no call is used for
anything else it does. -/
def rfenceStep (hartCount : Nat) (sbiHartMask : BitVec 64) (s : Machine) :
    RfenceStep → Option Machine
  | .rfence me a0 a1 a2 a3 a4 fid =>
    some (if (s.activity me).isIdle then
      s.ecallRfence hartCount sbiHartMask me a0 a1 a2 a3 a4 fid else s)
  | .sendIpi me a0 a1 =>
    some (if (s.activity me).isIdle then
      s.ipiSendMany hartCount sbiHartMask me a0 a1 .sendIpi none else s)
  | .wake me hartid => if (s.activity me).isIdle then s.wake me hartid else some s
  | .reuse me info => some (if (s.activity me).inCall then s else s.setInfo me info)
  | .next me => s.next hartCount me

end Plo.Sbi
