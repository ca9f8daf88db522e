import Plo.Base.Run
import Plo.Base.Window

/-!
Pipes shared with a host behind a debug probe. A call reads the index of the other
side once, moves its bytes one at a time and stores its own index at the end. The host
may do something between any two of these, and it keeps to the same rules: it moves
what it has seen room or bytes for and may store its index at any time. Next to each
pipe stands what was accepted at one side of it and taken out at the other.
-/
namespace Plo.Devices.Rtt

/-- `struct rtt_pipe`, less its size. -/
structure Pipe where
  ptr : Nat → UInt8
  wr : Nat
  rd : Nat

/-- A side that puts bytes in: its `rd` and `wr`, what is left of its bytes and what it
moved. The room there was when the index was read is kept beside them. -/
structure Put where
  rd : Nat
  wr : Nat
  todo : List UInt8
  moved : List UInt8
  free : Nat

/-- A side that takes bytes out. -/
structure Get where
  rd : Nat
  wr : Nat
  todo : Nat
  moved : List UInt8

structure Channel where
  pipe : Pipe
  put : Option Put
  get : Option Get
  accepted : List UInt8
  taken : List UInt8

section
variable (sz : Nat)

/-- An index moved on, in an `unsigned int`. -/
def next (i : Nat) : Nat := (i + 1) % 2 ^ 32 % sz

/-- How many bytes wait in a pipe. -/
def used (pipe : Pipe) : Nat := (pipe.wr + sz - pipe.rd) % sz

/-- The start of putting bytes in: `limit` is where `wr` has to stop. -/
def startPut (c : Channel) (limit : Nat) (data : List UInt8) : Channel :=
  match c.put with
  | some _ => c
  | none =>
    { c with put := some ⟨limit, c.pipe.wr, data, [], sz - 1 - used sz c.pipe⟩ }

def startGet (c : Channel) (count : Nat) : Channel :=
  match c.get with
  | some _ => c
  | none => { c with get := some ⟨c.pipe.rd, c.pipe.wr, count, []⟩ }

def putByte (c : Channel) (p : Put) (b : UInt8) (todo : List UInt8) : Channel :=
  { c with
    pipe := { c.pipe with ptr := overlay c.pipe.ptr p.wr [b] }
    put := some { p with wr := next sz p.wr, todo := todo, moved := p.moved ++ [b] } }

def getByte (c : Channel) (g : Get) (todo : Nat) : Channel :=
  { c with
    get := some { g with rd := next sz g.rd, todo := todo, moved := g.moved ++ [c.pipe.ptr g.rd] } }

def publishPut (c : Channel) (p : Put) : Channel :=
  { c with pipe := { c.pipe with wr := p.wr }, put := none, accepted := c.accepted ++ p.moved }

def publishGet (c : Channel) (g : Get) : Channel :=
  { c with pipe := { c.pipe with rd := g.rd }, get := none, taken := c.taken ++ g.moved }

/-- The start of `rtt_write`. -/
def rttWrite (c : Channel) (data : List UInt8) : Channel :=
  startPut sz c ((c.pipe.rd + sz - 1) % 2 ^ 32 % sz) data

/-- The loop of `rtt_write` has ended. -/
def Put.Ended (p : Put) : Prop := p.todo = [] ∨ p.rd = p.wr

instance (p : Put) : Decidable p.Ended := inferInstanceAs (Decidable (_ ∨ _))

/-- What `rtt_write` does next: a byte, or the index at the end. -/
def rttWriteNext (c : Channel) : Channel :=
  match c.put with
  | none => c
  | some p =>
    if p.Ended then publishPut c p
    else
      match p.todo with
      | [] => c
      | b :: todo => putByte sz c p b todo

/-- The start of `rtt_read`. -/
def rttRead (c : Channel) (count : Nat) : Channel := startGet c count

/-- What `rtt_read` does next. -/
def rttReadNext (c : Channel) : Channel :=
  match c.get with
  | none => c
  | some g =>
    if g.todo = 0 ∨ g.rd = g.wr then publishGet c g
    else getByte sz c g (g.todo - 1)

/-- The host appends: it has seen `rd` and stops one byte before it. -/
def hostAppend (c : Channel) (data : List UInt8) : Channel :=
  startPut sz c ((c.pipe.rd + sz - 1) % sz) data

def hostAppendByte (c : Channel) : Channel :=
  match c.put with
  | none => c
  | some p =>
    match p.todo with
    | [] => c
    | b :: todo => if p.rd = p.wr then c else putByte sz c p b todo

def hostAppended (c : Channel) : Channel :=
  match c.put with
  | none => c
  | some p => publishPut c p

def hostRemoveByte (c : Channel) : Channel :=
  match c.get with
  | none => c
  | some g => if g.rd = g.wr then c else getByte sz c g g.todo

def hostRemoved (c : Channel) : Channel :=
  match c.get with
  | none => c
  | some g => publishGet c g

/-- What a call of `rtt_write` asked for, what room it saw and what it returned. -/
structure Return where
  count : Nat
  free : Nat
  bytes : Nat

/-- A channel number: the pipe to the host, the pipe from the host, and the calls of
`rtt_write` that returned. -/
structure Pair where
  tx : Channel
  rx : Channel
  returns : List Return

inductive Step where
  | write (data : List UInt8)
  | writeNext
  | read (count : Nat)
  | readNext
  | append (data : List UInt8)
  | appendByte
  | appended
  | remove
  | removeByte
  | removed

/-- The calls that have returned, once `rtt_write` has made its next step. -/
def returnsNext (s : Pair) : List Return :=
  match s.tx.put with
  | none => s.returns
  | some p =>
    if p.Ended then s.returns ++ [⟨p.moved.length + p.todo.length, p.free, p.moved.length⟩]
    else s.returns

def step (s : Pair) : Step → Pair
  | .write data => { s with tx := rttWrite sz s.tx data }
  | .writeNext => { s with tx := rttWriteNext sz s.tx, returns := returnsNext s }
  | .read count => { s with rx := rttRead s.rx count }
  | .readNext => { s with rx := rttReadNext sz s.rx }
  | .append data => { s with rx := hostAppend sz s.rx data }
  | .appendByte => { s with rx := hostAppendByte sz s.rx }
  | .appended => { s with rx := hostAppended s.rx }
  | .remove => { s with tx := startGet s.tx 0 }
  | .removeByte => { s with tx := hostRemoveByte sz s.tx }
  | .removed => { s with tx := hostRemoved s.tx }

end

/-- `rtt_init`, with whatever the buffer holds. -/
def rttInit (ptr : Nat → UInt8) : Channel := ⟨⟨ptr, 0, 0⟩, none, none, [], []⟩

def initial (tx rx : Nat → UInt8) : Pair := ⟨rttInit tx, rttInit rx, []⟩

/-- What was accepted at one side is what was taken out at the other, and then what
waits in the pipe. What a side is about to have taken out continues it. -/
structure Channel.Fifo (sz : Nat) (c : Channel) : Prop where
  accepted : c.accepted = c.taken ++ window sz c.pipe.ptr c.pipe.rd (used sz c.pipe)
  prefixed : ∀ g, c.get = some g → c.taken ++ g.moved <+: c.accepted

/-- Where `rtt_write` is about to store a byte, none waits for the host. -/
def Channel.SparesPending (sz : Nat) (c : Channel) : Prop :=
  ∀ p, c.put = some p → ¬p.Ended → ∀ i, i < used sz c.pipe → (c.pipe.rd + i) % sz ≠ p.wr

/-- The promises of the pipes of size `sz`, in every run. -/
def PipesWork (sz : Nat) : Prop :=
  ∀ (tx rx : Nat → UInt8) (s : Pair),
    Reachable (step sz) (fun _ _ => True) (initial tx rx) s →
      s.tx.Fifo sz ∧ s.rx.Fifo sz ∧ s.tx.SparesPending sz ∧
        ∀ r ∈ s.returns, min r.count r.free ≤ r.bytes

end Plo.Devices.Rtt
