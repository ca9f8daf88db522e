import Plo.Base.Overlay
import Plo.Phfs.Frame

/-!
Reading a file of the host through `phoenixd`. One side builds a request, sends
it, waits for a message and sends the request again when none comes; the other
answers every request with the bytes of its file. Requests and replies in flight
form a link of two queues. The host is little-endian, so a request sent again is
the same message.
-/
namespace Plo.Phfs

def MSG_READ : BitVec 32 := 2

abbrev PHOENIXD_HDRSZ : Nat := 12

structure MsgPhoenixd where
  handle : BitVec 32
  pos : BitVec 32
  len : BitVec 32

/-- What `phoenixd_serializeMsgPhd` stores. -/
def serializeMsgPhd (handle pos len : BitVec 32) : List UInt8 :=
  [handle, pos, len].flatMap fun w => (List.range 4).map (wordByte w)

def deserializeMsgPhd (buff : Nat → UInt8) : MsgPhoenixd where
  handle := deserialize32 buff
  pos := deserialize32 (fun k => buff (4 + k))
  len := deserialize32 (fun k => buff (8 + k))

structure ReadCall where
  fd : BitVec 32
  offs : Nat
  len : Nat
  deriving DecidableEq

/-- The message `phoenixd_read` gives to `msg_send`, built over what `smsg` held. -/
def readRequest (smsg : Msg) (c : ReadCall) : Msg :=
  let header := serializeMsgPhd c.fd (BitVec.ofNat 32 c.offs) (BitVec.ofNat 32 c.len)
  let smsg := { smsg with data := overlay smsg.data 0 header }
  (smsg.settype MSG_READ).setlen (BitVec.ofNat 32 PHOENIXD_HDRSZ)

/-- What `phoenixd_read` makes of the message received: its result and the bytes
it copies. -/
def readReply (rmsg : Msg) : Int × List UInt8 :=
  if rmsg.gettype ≠ MSG_READ then (- EIO, [])
  else
    let io := deserializeMsgPhd rmsg.data
    if io.len.toInt < 0 then (- EIO, [])
    else
      let room := BitVec.ofNat 32 rmsg.getlen - BitVec.ofNat 32 PHOENIXD_HDRSZ
      let l := if io.len.toNat > room.toNat then room.toNat else io.len.toNat
      (l, (List.range l).map (fun i => rmsg.data (PHOENIXD_HDRSZ + i)))

/-- A message with a header of `msg_phoenixd_t` and data after it. -/
def phdMsg (handle pos len : BitVec 32) (data : List UInt8) : Msg :=
  let m : Msg := ⟨0, 0, overlay (fun _ => 0) 0 (serializeMsgPhd handle pos len ++ data)⟩
  let m := (m.settype MSG_READ).setlen (BitVec.ofNat 32 (PHOENIXD_HDRSZ + data.length))
  m.setcsum (msgCsum .little m)

/-- The answer of a server with the given files: as many bytes as were asked for,
as the message holds and as there are, or an error. What it puts into the
position is its own choice. -/
def serverReply (files : BitVec 32 → Option (List UInt8)) (pos : BitVec 32) (req : Msg) : Msg :=
  let io := deserializeMsgPhd req.data
  match files io.handle with
  | none => phdMsg io.handle pos (-1) []
  | some file =>
    let data := (file.drop io.pos.toNat).take (min io.len.toNat (MSG_MAXLEN - PHOENIXD_HDRSZ))
    phdMsg io.handle pos (BitVec.ofNat 32 data.length) data

/-- The message `msg_read` leaves for `m`: beyond its length there is what the
buffer held. -/
def Msg.delivered (m : Msg) (junk : Nat → UInt8) : Msg :=
  { m with data := fun i => if i < m.getlen then m.data i else junk i }

@[simp] theorem gettype_delivered (m : Msg) (junk : Nat → UInt8) :
    (m.delivered junk).gettype = m.gettype := rfl

@[simp] theorem getlen_delivered (m : Msg) (junk : Nat → UInt8) :
    (m.delivered junk).getlen = m.getlen := rfl

theorem eq_delivered {m r : Msg} (hcsum : r.csum = m.csum) (htype : r.type = m.type)
    (hdata : ∀ i < m.getlen, r.data i = m.data i) : r = m.delivered r.data := by
  have hall : r.data = (m.delivered r.data).data := by
    funext i
    by_cases hi : i < m.getlen
    · simp only [Msg.delivered, if_pos hi, hdata i hi]
    · simp only [Msg.delivered, if_neg hi]
  cases r with
  | mk csum type data =>
      cases hcsum
      cases htype
      exact congrArg (Msg.mk m.csum m.type) hall

/-- A frame that `msg_read` returns is delivered in this sense. -/
theorem msgRead_delivered {e : Endian} {m : Msg} (hcsum : m.getcsum = msgCsum e m)
    (hlen : m.getlen ≤ MSG_MAXLEN) {noise suffix : List UInt8}
    (hnoise : ∀ c ∈ noise, c ≠ MSG_MARK) {chunks : List (List UInt8)} (headers : Nat → UInt8)
    (rmsg : Msg) (hchunks : chunks.flatten = noise ++ m.wire ++ suffix) :
    let out := msgRead e headers (chunks.map .ok) .desyn rmsg
    out.msg = m.delivered out.msg.data := by
  obtain ⟨_, _, hcs, htype, hdata⟩ := msgRead_wire hcsum hlen hnoise headers rmsg hchunks
  exact eq_delivered hcs htype hdata

/-- Where a turn of the loop of `msg_send` is. -/
inductive Phase
  | writing
  | reading
  deriving DecidableEq

/-- A call of `phoenixd_read` under way. -/
structure Sending where
  call : ReadCall
  smsg : Msg
  retr : Nat
  phase : Phase

/-- A reply in flight, with the request it answers. -/
structure Reply where
  asked : Msg
  msg : Msg

/-- A call of `phoenixd_read` that has returned. -/
structure Return where
  call : ReadCall
  res : Int
  bytes : List UInt8
  deriving DecidableEq

/-- The two parties and the messages between them, the oldest first. -/
structure Link where
  requests : List Msg
  replies : List Reply
  sending : Option Sending
  returned : List Return

/-- What can happen. A call brings the memory its message is built over, an
arrival the memory the message is received into. -/
inductive Event
  | call (c : ReadCall) (smsg : Msg)
  | write (ok : Bool)
  | serve (pos : BitVec 32)
  | receive (junk : Nat → UInt8)
  | timeout
  | lose

namespace Link

def init : Link := ⟨[], [], none, []⟩

def return_ (s : Link) (c : ReadCall) (res : Int) (bytes : List UInt8) : Link :=
  { s with sending := none, returned := s.returned ++ [⟨c, res, bytes⟩] }

/-- The next turn of the loop of `msg_send`, or its end. -/
def retry (s : Link) (t : Sending) : Link :=
  if t.retr + 1 < MSGRECV_MAXRETR then
    { s with sending := some { t with retr := t.retr + 1, phase := .writing } }
  else s.return_ t.call (- EIO) []

/-- What is not possible in a state leaves it as it is. -/
def step (files : BitVec 32 → Option (List UInt8)) (s : Link) : Event → Link
  | .call c smsg =>
    match s.sending with
    | some _ => s
    | none =>
      if c.len > MSG_MAXLEN - PHOENIXD_HDRSZ then s.return_ c (-EINVAL) []
      else
        let smsg := readRequest smsg c
        { s with sending := some ⟨c, smsg.setcsum (msgCsum .little smsg), 0, .writing⟩ }
  | .write ok =>
    match s.sending with
    | some ⟨c, smsg, retr, .writing⟩ =>
      if ok then
        { s with requests := s.requests ++ [smsg], sending := some ⟨c, smsg, retr, .reading⟩ }
      else s.retry ⟨c, smsg, retr, .writing⟩
    | _ => s
  | .serve pos =>
    match s.requests with
    | req :: requests =>
      { s with requests := requests, replies := s.replies ++ [⟨req, serverReply files pos req⟩] }
    | [] => s
  | .receive junk =>
    match s.sending, s.replies with
    | some ⟨c, _, _, .reading⟩, reply :: replies =>
      let ret := readReply (reply.msg.delivered junk)
      { s with replies := replies }.return_ c ret.1 ret.2
    | _, _ => s
  | .timeout =>
    match s.sending with
    | some ⟨c, smsg, retr, .reading⟩ => s.retry ⟨c, smsg, retr, .reading⟩
    | _ => s
  | .lose => { s with replies := s.replies.tail }

end Link

end Plo.Phfs
