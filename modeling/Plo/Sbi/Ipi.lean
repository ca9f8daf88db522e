import Plo.Sbi.List
import Plo.Base.Run

/-!
Interprocessor interrupts. Every hart has a pool of nodes, a mask of the free ones
and a list of posted tasks. A task for the caller's own hart is run at once; any
other takes a node of the target's pool, and the target's handler takes the list
apart. The tasks carry the number of their post, which the code does not have and
nothing here depends on.
-/
namespace Plo.Sbi
variable {η δ : Type}

abbrev MAX_TASK_COUNT : Nat := 16

def SBI_SUCCESS : Int := 0
def SBI_ERR_NOT_SUPPORTED : Int := -2
def SBI_ERR_INVALID_PARAM : Int := -3
def SBI_ERR_ALREADY_AVAILABLE : Int := -6
def SBI_IPI_RETRY : Int := 1

/-- One test of `sbi_getFirstBit`: where none of the low `n` bits is set, they are
counted and shifted out. -/
def skipZeros (n : Nat) (mask : BitVec 64) (r : Nat × BitVec 64) : Nat × BitVec 64 :=
  if r.2 &&& mask = 0 then (r.1 + n, r.2 >>> n) else r

def getFirstBit (v : BitVec 64) : Nat :=
  let r := (0, v)
  let r := skipZeros 32 0xffffffff r
  let r := skipZeros 16 0xffff r
  let r := skipZeros 8 0xff r
  let r := skipZeros 4 0xf r
  let r := skipZeros 2 0x3 r
  if r.2 &&& 0x01 = 0 then r.1 + 1 else r.1

/-- `ipi_task_t`, with the number of the post. -/
structure Post (η δ : Type) where
  number : Nat
  handler : Option η
  data : δ

/-- What `ipi_common` has for one hart. -/
structure Hart (η δ : Type) where
  poolMask : BitVec 16
  pool : Fin MAX_TASK_COUNT → Post η δ
  links : Links (Fin MAX_TASK_COUNT)

/-- After `sbi_ipiInit`. -/
def Hart.init (pool : Fin MAX_TASK_COUNT → Post η δ) : Hart η δ :=
  ⟨0xffff, pool, ⟨fun _ => none, fun _ => none, none⟩⟩

/-- A task that is run: nothing is called when it has no handler. -/
def Post.called (p : Post η δ) : List (Post η δ) := if p.handler.isSome then [p] else []

/-- How a node is added to the tasks: to an empty list itself, else through the
field of its head that links the last node. -/
def addTask {ν : Type} [DecidableEq ν] (links : Links ν) (node : ν) : Option (Links ν) :=
  match links.tasks with
  | none => listAdd links .tasks node
  | some tasks => listAdd links (.prev tasks) node

/-- `sbi_ipiSend` to another hart: what it leaves of that hart, and its result. -/
def Hart.send (s : Hart η δ) (p : Post η δ) : Option (Hart η δ × Int) :=
  if s.poolMask = 0 then some (s, SBI_IPI_RETRY)
  else do
    let idx := getFirstBit (s.poolMask.setWidth 64)
    let node ← if h : idx < MAX_TASK_COUNT then some ⟨idx, h⟩ else none
    let links ← addTask s.links node
    some (⟨s.poolMask &&& ~~~((1 : BitVec 16) <<< idx), Function.update s.pool node p, links⟩, SBI_SUCCESS)

/-- A turn of the loop of `sbi_ipiHandler`: the node is taken out of the list and
freed, and this is its task. -/
def Hart.take (s : Hart η δ) (node : Fin MAX_TASK_COUNT) : Option (Hart η δ × Post η δ) := do
  let links ← listRemove s.links .tasks node
  some ({ s with links := links, poolMask := s.poolMask ||| (1 : BitVec 16) <<< node.val },
    s.pool node)

/-- The loop of `sbi_ipiHandler`, for at most `fuel` nodes: the tasks it runs. -/
def Hart.drain : Nat → Hart η δ → Option (Hart η δ × List (Post η δ))
  | 0, _ => none
  | fuel + 1, s =>
    match s.links.tasks with
    | none => some (s, [])
    | some node => do
      let (s, p) ← s.take node
      let (s, ran) ← Hart.drain fuel s
      some (s, p.called ++ ran)

/-- `sbi_ipiSend` by the hart `me`: the harts it leaves, its result, and the tasks
it runs itself. -/
def ipiSend (harts : Nat → Hart η δ) (me hartid : Nat) (p : Post η δ) :
    Option ((Nat → Hart η δ) × Int × List (Post η δ)) :=
  if hartid = me then some (harts, SBI_SUCCESS, p.called)
  else do
    let (hart, ret) ← (harts hartid).send p
    some (Function.update harts hartid hart, ret, [])

def ipiHandler (fuel : Nat) (harts : Nat → Hart η δ) (hartid : Nat) :
    Option ((Nat → Hart η δ) × List (Post η δ)) := do
  let (hart, ran) ← (harts hartid).drain fuel
  some (Function.update harts hartid hart, ran)

/-- The harts, and for each of them the posts accepted since its handler last ran. -/
structure Posting (η δ : Type) where
  harts : Nat → Hart η δ
  pending : Nat → List (Post η δ)
  posted : Nat

def Posting.init (pools : Nat → Fin MAX_TASK_COUNT → Post η δ) : Posting η δ :=
  ⟨fun h => Hart.init (pools h), fun _ => [], 0⟩

inductive IpiStep (η δ : Type)
  | send (me hartid : Nat) (handler : Option η) (data : δ)
  | handler (hartid : Nat)

/-- One call on the whole system; `none` when a NULL link was followed or a loop
did not end. -/
def Posting.step (fuel : Nat) (s : Posting η δ) : IpiStep η δ → Option (Posting η δ)
  | .send me hartid handler data => do
    let p := ⟨s.posted, handler, data⟩
    let (harts, ret, _) ← ipiSend s.harts me hartid p
    let queued := hartid ≠ me ∧ ret = SBI_SUCCESS
    some ⟨harts, if queued then Function.update s.pending hartid (s.pending hartid ++ [p])
      else s.pending, s.posted + 1⟩
  | .handler hartid => do
    let (harts, _) ← ipiHandler fuel s.harts hartid
    some { s with harts := harts, pending := Function.update s.pending hartid [] }

end Plo.Sbi
