import Plo.Base.Bytes
import Plo.Lib.Types

/-!
Messages of the phfs protocol and their frames. A message lies in memory as two
words in the host's byte order and a buffer of data. The sender puts the words
into the order of the wire where they lie; the receiver is a state machine over
bytes, whatever the pieces in which the device hands them over.
-/
namespace Plo.Phfs

def MSG_MARK : UInt8 := 0x7e
def MSG_ESC : UInt8 := 0x7d
def MSG_ESCMARK : UInt8 := 0x5e
def MSG_ESCESC : UInt8 := 0x5d

abbrev MSG_HDRSZ : Nat := 8
abbrev MSG_MAXLEN : Nat := 512
abbrev MSGRECV_MAXRETR : Nat := 3

/-- `msg_t`; the data is the memory from `data` on. -/
structure Msg where
  csum : BitVec 32
  type : BitVec 32
  data : Nat → UInt8

namespace Msg

def settype (m : Msg) (t : BitVec 32) : Msg :=
  { m with type := (m.type &&& ~~~0xffff) ||| (t &&& 0xffff) }

def gettype (m : Msg) : BitVec 32 := m.type &&& 0xffff

def setlen (m : Msg) (l : BitVec 32) : Msg :=
  { m with type := (m.type &&& 0xffff#32) ||| (l <<< 16) }

def getlen (m : Msg) : Nat := (m.type >>> 16).toNat

def setcsum (m : Msg) (c : BitVec 32) : Msg :=
  { m with csum := (m.csum &&& ~~~0xffff) ||| (c &&& 0xffff) }

def getcsum (m : Msg) : BitVec 32 := m.csum &&& 0xffff

def getseq (m : Msg) : BitVec 32 := m.csum >>> 16

def byte (e : Endian) (m : Msg) (k : Nat) : UInt8 :=
  if k < 4 then e.byte m.csum k
  else if k < MSG_HDRSZ then e.byte m.type (k - 4)
  else m.data (k - MSG_HDRSZ)

end Msg

def deserialize32 (from_ : Nat → UInt8) : BitVec 32 := leWord from_

/-- What a host reads from a word over which the bytes of `w` were written, the
least significant first. -/
def serialize32 (e : Endian) (w : BitVec 32) : BitVec 32 :=
  match e with
  | .little => w
  | .big => leWord (fun k => wordByte w (3 - k))

def serializeHeaders (e : Endian) (msg : Msg) : Msg :=
  { msg with csum := serialize32 e msg.csum, type := serialize32 e msg.type }

def deserializeHeaders (msg : Msg) (buff : Nat → UInt8) : Msg :=
  { msg with csum := deserialize32 buff, type := deserialize32 (fun k => buff (4 + k)) }

/-- The sum runs in sixteen bits over everything after the first word. -/
def msgCsum (e : Endian) (msg : Msg) : BitVec 32 :=
  let csum : BitVec 16 := (List.range' 4 (4 + msg.getlen)).foldl
    (fun csum k => csum + (msg.byte e k).toBitVec.setWidth 16) 0
  (csum + msg.getseq.setWidth 16).setWidth 32

/-- The bytes given to the device for one byte of the message. -/
def escape (c : UInt8) : List UInt8 :=
  if c = MSG_MARK ∨ c = MSG_ESC then
    [MSG_ESC, if c = MSG_MARK then MSG_ESCMARK else MSG_ESCESC]
  else [c]

section Write
variable {δ : Type} (write : δ → List UInt8 → δ × Int)

/-- The loop of `msg_write` over the bytes left. -/
def writeBytes (d : δ) : List UInt8 → δ × Int
  | [] => (d, EOK)
  | c :: cs =>
    match write d (escape c) with
    | (d, res) => if res < 0 then (d, res) else writeBytes d cs

/-- `msg_write` on a device: what becomes of the device and of the message, and
the result. The counter of the loop is wide enough for every length below
65528, more than the data a message holds. -/
def msgWrite (e : Endian) (d : δ) (msg : Msg) : δ × Msg × Int :=
  let len := msg.getlen
  let msg := serializeHeaders e msg
  match write d [MSG_MARK] with
  | (d, res) =>
    if res < 0 then (d, msg, res)
    else
      match writeBytes write d ((List.range (MSG_HDRSZ + len)).map (msg.byte e)) with
      | (d, res) => if res < 0 then (d, msg, res) else (d, msg, MSG_HDRSZ + len)

end Write

inductive ReadState
  | desyn
  | frame
  deriving DecidableEq

structure Receiver where
  state : ReadState
  escfl : Bool
  len : Nat
  headers : Nat → UInt8
  msg : Msg

/-- Puts an unescaped byte of the frame where it belongs. -/
def Receiver.put (r : Receiver) (c : UInt8) : Receiver :=
  let r :=
    if r.len < MSG_HDRSZ then
      { r with headers := fun i => if i = r.len then c else r.headers i }
    else
      { r with msg := { r.msg with
          data := fun i => if i = r.len - MSG_HDRSZ then c else r.msg.data i } }
  let r := { r with len := r.len + 1 }
  if r.len = MSG_HDRSZ then { r with msg := deserializeHeaders r.msg r.headers } else r

/-- Stores a byte and looks whether the frame is complete; an error is a return
from `msg_read`. -/
def Receiver.store (e : Endian) (r : Receiver) (c : UInt8) : Except (Receiver × Int) Receiver :=
  let r := r.put c
  if r.len ≥ MSG_HDRSZ ∧ r.len = r.msg.getlen + MSG_HDRSZ then
    let r := { r with state := .desyn }
    if r.msg.getcsum ≠ msgCsum e r.msg then .error (r, - ENXIO) else .error (r, r.len)
  else .ok r

/-- One turn of the inner loop of `msg_read`. -/
def Receiver.step (e : Endian) (r : Receiver) (c : UInt8) : Except (Receiver × Int) Receiver :=
  match r.state with
  | .frame =>
    if r.len = MSG_HDRSZ + MSG_MAXLEN then .error ({ r with state := .desyn }, - ENXIO)
    else if c = MSG_MARK then .error (r, - ENXIO)
    else if r.escfl = false ∧ c = MSG_ESC then .ok { r with escfl := true }
    else if r.escfl then
      let c := if c = MSG_ESCMARK then MSG_MARK else c
      let c := if c = MSG_ESCESC then MSG_ESC else c
      { r with escfl := false }.store e c
    else r.store e c
  | .desyn => if c = MSG_MARK then .ok { r with state := .frame } else .ok r

/-- A result of `devs_read`: the bytes stored, or an error. -/
abbrev ReadResult := Except Int (List UInt8)

/-- What a call of `msg_read` came to: the results it did not ask for, the state
and the message it leaves, and its result unless it still waits for the device. -/
structure ReadOutcome where
  rest : List ReadResult
  state : ReadState
  msg : Msg
  res : Option Int

/-- The outer loop of `msg_read`. Bytes of a piece after a return are dropped. -/
def readLoop (e : Endian) : List ReadResult → Receiver → ReadOutcome
  | [], r => ⟨[], r.state, r.msg, none⟩
  | .error _ :: rest, r => ⟨rest, .desyn, r.msg, some (- ENXIO)⟩
  | .ok buff :: rest, r =>
    match buff.foldlM (Receiver.step e) r with
    | .error (r, res) => ⟨rest, r.state, r.msg, some res⟩
    | .ok r => readLoop e rest r

/-- `msg_read` on a device that answers with the given results; `headers` is
what the stack held. -/
def msgRead (e : Endian) (headers : Nat → UInt8) (reads : List ReadResult) (state : ReadState)
    (msg : Msg) : ReadOutcome :=
  readLoop e reads ⟨state, false, 0, headers, msg⟩

end Plo.Phfs
