import Plo.Base.Run
import Plo.Base.Window

/-!
The circular buffer of the serial drivers. `size_t` has `w` bits; the number of
bytes a bulk operation copies goes through an `int`. The data area is the memory
from its first byte on.
-/
namespace Plo.Lib.Cbuf
variable {w : Nat}

/-- `cbuffer_t` -/
structure Cbuffer (w : Nat) where
  capacity : BitVec w
  tail : BitVec w
  head : BitVec w
  full : Bool
  data : Nat → UInt8

/-- The `min` macro on two sizes. -/
def szMin (a b : BitVec w) : BitVec w := if a > b then b else a

/-- A size assigned to an `int`, and an `int` used as a size. -/
def toInt (x : BitVec w) : BitVec 32 := x.setWidth 32
def toSize (w : Nat) (x : BitVec 32) : BitVec w := x.signExtend w

def init (data : Nat → UInt8) (capacity : BitVec w) : Cbuffer w := ⟨capacity, 0, 0, false, data⟩

def size (buf : Cbuffer w) : BitVec w :=
  if buf.tail = buf.head then
    if buf.full then buf.capacity else 0
  else (buf.tail - buf.head + buf.capacity) % buf.capacity

def empty (buf : Cbuffer w) : Bool := buf.head == buf.tail && !buf.full

/-- The copying of `lib_cbufWrite`: up to the head, or up to the end of the area
and then from its beginning on. The memory it leaves, and the number of bytes. -/
def copyIn (buf : Cbuffer w) (data : List UInt8) (sz : BitVec w) : (Nat → UInt8) × BitVec 32 :=
  if buf.head > buf.tail then
    let bytes := toInt (szMin sz (buf.head - buf.tail))
    (overlay buf.data buf.tail.toNat (data.take (toSize w bytes).toNat), bytes)
  else
    let bytes := toInt (szMin sz (buf.capacity - buf.tail))
    let mem := overlay buf.data buf.tail.toNat (data.take (toSize w bytes).toNat)
    if toSize w bytes < sz ∧ buf.head ≠ 0 then
      let data := data.drop (toSize w bytes).toNat
      let sz := sz - toSize w bytes
      (overlay mem 0 (data.take (szMin sz buf.head).toNat),
        toInt (toSize w bytes + szMin sz buf.head))
    else (mem, bytes)

/-- `lib_cbufWrite` of all of `data`, and what it returns. -/
def write (buf : Cbuffer w) (data : List UInt8) : Cbuffer w × BitVec w :=
  let sz := BitVec.ofNat w data.length
  if sz = 0 ∨ buf.full then (buf, 0)
  else
    let (mem, bytes) := copyIn buf data sz
    let tail := (buf.tail + toSize w bytes) % buf.capacity
    ({ buf with data := mem, tail := tail, full := tail == buf.head }, toSize w bytes)

def writeByte (buf : Cbuffer w) (data : UInt8) : Cbuffer w × BitVec w :=
  if buf.full then (buf, 0)
  else
    let tail := (buf.tail + 1) % buf.capacity
    ({ buf with data := overlay buf.data buf.tail.toNat [data], tail := tail,
                full := tail == buf.head }, 1)

/-- The copying of `lib_cbufRead`. -/
def copyOut (buf : Cbuffer w) (sz : BitVec w) : List UInt8 × BitVec 32 :=
  if buf.tail > buf.head then
    let bytes := toInt (szMin sz (buf.tail - buf.head))
    (slice buf.data buf.head.toNat (toSize w bytes).toNat, bytes)
  else
    let bytes := toInt (szMin sz (buf.capacity - buf.head))
    let got := slice buf.data buf.head.toNat (toSize w bytes).toNat
    if toSize w bytes < sz then
      let sz := sz - toSize w bytes
      (got ++ slice buf.data 0 (szMin sz buf.tail).toNat,
        toInt (toSize w bytes + szMin sz buf.tail))
    else (got, bytes)

/-- `lib_cbufRead`: what it returns, and the bytes it stores. -/
def read (buf : Cbuffer w) (sz : BitVec w) : Cbuffer w × BitVec w × List UInt8 :=
  if sz = 0 ∨ (buf.head = buf.tail ∧ ¬ buf.full) then (buf, 0, [])
  else
    let (got, bytes) := copyOut buf sz
    ({ buf with head := (buf.head + toSize w bytes) % buf.capacity, full := false },
      toSize w bytes, got)

def readByte (buf : Cbuffer w) : Cbuffer w × BitVec w × List UInt8 :=
  if buf.head = buf.tail ∧ ¬ buf.full then (buf, 0, [])
  else
    ({ buf with head := (buf.head + 1) % buf.capacity, full := false }, 1,
      [buf.data buf.head.toNat])

inductive Op (w : Nat)
  | write (data : List UInt8)
  | writeByte (data : UInt8)
  | read (sz : BitVec w)
  | readByte

/-- What an operation returns, and the bytes it gives the caller. -/
structure Reply where
  bytes : Nat
  data : List UInt8
  deriving DecidableEq

/-- The size an operation asks for is one an `int` holds. -/
def Op.Small : Op w → Prop
  | .write data => data.length < 2 ^ 31
  | .read sz => sz.toNat < 2 ^ 31
  | .writeByte _ | .readByte => True

def Op.run (buf : Cbuffer w) : Op w → Cbuffer w × Reply
  | .write data => ((Cbuf.write buf data).1, ⟨(Cbuf.write buf data).2.toNat, []⟩)
  | .writeByte data => ((Cbuf.writeByte buf data).1, ⟨(Cbuf.writeByte buf data).2.toNat, []⟩)
  | .read sz => ((Cbuf.read buf sz).1, ⟨(Cbuf.read buf sz).2.1.toNat, (Cbuf.read buf sz).2.2⟩)
  | .readByte => ((Cbuf.readByte buf).1, ⟨(Cbuf.readByte buf).2.1.toNat, (Cbuf.readByte buf).2.2⟩)

/-- A bounded queue: a write appends what fits, a read takes the oldest bytes. -/
def enqueue (cap : Nat) (q data : List UInt8) : List UInt8 × Reply :=
  let n := min data.length (cap - q.length)
  (q ++ data.take n, ⟨n, []⟩)

def dequeue (q : List UInt8) (sz : Nat) : List UInt8 × Reply :=
  (q.drop sz, ⟨min sz q.length, q.take sz⟩)

def Op.queue (cap : Nat) (q : List UInt8) : Op w → List UInt8 × Reply
  | .write data => enqueue cap q data
  | .writeByte data => enqueue cap q [data]
  | .read sz => dequeue q sz.toNat
  | .readByte => dequeue q 1

/-- The byte operation for every byte of a list, and the sum of what it returns. -/
def writeBytes (buf : Cbuffer w) : List UInt8 → Cbuffer w × Nat
  | [] => (buf, 0)
  | c :: data =>
    let rest := writeBytes (writeByte buf c).1 data
    (rest.1, (writeByte buf c).2.toNat + rest.2)

def readBytes (buf : Cbuffer w) : Nat → Cbuffer w × Reply
  | 0 => (buf, ⟨0, []⟩)
  | sz + 1 =>
    let rest := readBytes (readByte buf).1 sz
    (rest.1, ⟨(readByte buf).2.1.toNat + rest.2.bytes, (readByte buf).2.2 ++ rest.2.data⟩)

/-- A buffer behaves as the queue next to it. -/
structure Behaves (buf : Cbuffer w) (q : List UInt8) : Prop where
  size : (Cbuf.size buf).toNat = q.length
  empty : Cbuf.empty buf = true ↔ q = []
  reply : ∀ op : Op w, op.Small → (op.run buf).2 = (op.queue buf.capacity.toNat q).2
  write : ∀ data : List UInt8, data.length < 2 ^ 31 →
    ((Cbuf.write buf data).1, (Cbuf.write buf data).2.toNat) = writeBytes buf data
  read : ∀ sz : BitVec w, sz.toNat < 2 ^ 31 →
    ((Cbuf.read buf sz).1, ⟨(Cbuf.read buf sz).2.1.toNat, (Cbuf.read buf sz).2.2⟩) =
      readBytes buf sz.toNat

/-- Whatever is done with a buffer of this capacity, it behaves as the queue that
the same operations make. -/
def IsFifo (capacity : BitVec w) : Prop :=
  ∀ (data : Nat → UInt8) (state : Cbuffer w × List UInt8),
    Reachable (fun s op => ((Op.run s.1 op).1, (Op.queue capacity.toNat s.2 op).1))
      (fun _ op => op.Small) (init data capacity, []) state →
    Behaves state.1 state.2

end Plo.Lib.Cbuf
