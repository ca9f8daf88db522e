import Plo.Phfs.Phoenixd
import Plo.Phfs.Send

/-!
What `phoenixd_read` makes of a reply. The reply has the length of its frame and
the signed one of its payload; the room of the caller is compared with neither,
and the header is taken off the first in unsigned arithmetic.
-/
namespace Plo.Phfs

/-- `phoenixd_read` over a device: its result and the bytes it stores, unless it
waits for the device. -/
def phoenixdRead (e : Endian) (attempts : Nat → Attempt) (stack : Nat → Nat → UInt8)
    (smsg rmsg : Msg) (c : ReadCall) : Option (Int × List UInt8) :=
  if c.len > MSG_MAXLEN - PHOENIXD_HDRSZ then some (-EINVAL, [])
  else
    let sent := msgSend e attempts stack (readRequest smsg c) rmsg
    sent.res.map fun res => if res < 0 then (- EIO, []) else readReply sent.rmsg

/-- What a call with the given result took from the reply: no more than the
caller has room for, and nothing that was not received. -/
structure TakenFrom (c : ReadCall) (reply : Msg) (ret : Int × List UInt8) : Prop where
  room : ret.1 ≤ c.len
  stored : (ret.2.length : Int) = ret.1
  copied : ∀ i (h : i < ret.2.length), ret.2[i] = reply.data (PHOENIXD_HDRSZ + i)
  received : ∀ i < ret.2.length, PHOENIXD_HDRSZ + i < reply.getlen

/-- The bytes the reply says it holds. -/
def Msg.payload (reply : Msg) : BitVec 32 := (deserializeMsgPhd reply.data).len

/-- A reply that is refused, holds nothing, or has a whole header and one of its
lengths within the request. -/
def ReplyFits (c : ReadCall) (reply : Msg) : Prop :=
  reply.gettype ≠ MSG_READ ∨ reply.payload.toInt < 0 ∨ reply.payload = 0 ∨
    (PHOENIXD_HDRSZ ≤ reply.getlen ∧
      (reply.payload.toNat ≤ c.len ∨ reply.getlen ≤ PHOENIXD_HDRSZ + c.len))

section Reply
variable {reply : Msg}

theorem getlen_lt (reply : Msg) : reply.getlen < 2 ^ 16 := by
  have hlt := reply.type.isLt
  rw [Msg.getlen, BitVec.toNat_ushiftRight, Nat.shiftRight_eq_div_pow]
  omega

/-- The unsigned difference wraps around when the reply has no whole header. -/
theorem room_toNat (reply : Msg) :
    (BitVec.ofNat 32 reply.getlen - BitVec.ofNat 32 PHOENIXD_HDRSZ).toNat =
      if PHOENIXD_HDRSZ ≤ reply.getlen then reply.getlen - PHOENIXD_HDRSZ
      else 2 ^ 32 - (PHOENIXD_HDRSZ - reply.getlen) := by
  have hlt := getlen_lt reply
  rw [BitVec.toNat_sub, BitVec.toNat_ofNat, BitVec.toNat_ofNat]
  simp only [PHOENIXD_HDRSZ]
  split <;> omega

theorem readReply_refused (h : reply.gettype ≠ MSG_READ ∨ reply.payload.toInt < 0) :
    readReply reply = (- EIO, []) := by
  by_cases htype : reply.gettype ≠ MSG_READ
  · rw [readReply, if_pos htype]
  · rw [readReply, if_neg htype]
    exact if_pos (h.resolve_left htype)

/-- The bytes copied from a reply that is not refused. -/
theorem readReply_copied (htype : reply.gettype = MSG_READ) (hlen : 0 ≤ reply.payload.toInt) :
    ∃ l : Nat, readReply reply =
        ((l : Int), (List.range l).map fun i => reply.data (PHOENIXD_HDRSZ + i)) ∧
      l = if PHOENIXD_HDRSZ ≤ reply.getlen then
        min reply.payload.toNat (reply.getlen - PHOENIXD_HDRSZ) else reply.payload.toNat := by
  have hpos : ¬ (deserializeMsgPhd reply.data).len.toInt < 0 := not_lt.mpr hlen
  rw [readReply, if_neg (not_not.mpr htype)]
  simp only [if_neg hpos]
  refine ⟨_, rfl, ?_⟩
  have hbound : reply.payload.toNat < 2 ^ 31 := by
    have hcond := BitVec.toInt_eq_toNat_cond reply.payload
    have hlt := reply.payload.isLt
    split at hcond <;> omega
  rw [room_toNat, ← Msg.payload]
  split
  · split <;> omega
  · simp only [PHOENIXD_HDRSZ]
    exact if_neg (by omega)

theorem takenFrom_copied (c : ReadCall) (reply : Msg) (l : Nat) :
    TakenFrom c reply ((l : Int), (List.range l).map fun i => reply.data (PHOENIXD_HDRSZ + i)) ↔
      l ≤ c.len ∧ (l = 0 ∨ PHOENIXD_HDRSZ + l ≤ reply.getlen) := by
  constructor
  · intro h
    have hreceived := h.received
    simp only [List.length_map, List.length_range] at hreceived
    refine ⟨Int.ofNat_le.mp h.room, ?_⟩
    cases l with
    | zero => exact Or.inl rfl
    | succ l => exact Or.inr (hreceived l (Nat.lt_succ_self l))
  · rintro ⟨hroom, hreceived⟩
    refine ⟨Int.ofNat_le.mpr hroom, by simp, by simp, ?_⟩
    intro i hi
    rw [List.length_map, List.length_range] at hi
    omega

theorem readReply_fits_iff (c : ReadCall) (reply : Msg) :
    (0 ≤ (readReply reply).1 → TakenFrom c reply (readReply reply)) ↔ ReplyFits c reply := by
  by_cases hrefused : reply.gettype ≠ MSG_READ ∨ reply.payload.toInt < 0
  · have hneg : ¬ (0 : Int) ≤ - EIO := by decide
    rw [readReply_refused hrefused]
    refine iff_of_true (fun h => absurd h hneg) ?_
    exact hrefused.imp_right Or.inl
  · obtain ⟨htype, hpos⟩ := not_or.mp hrefused
    obtain ⟨l, hret, hl⟩ := readReply_copied (not_not.mp htype) (not_lt.mp hpos)
    have hzero : reply.payload = 0 ↔ reply.payload.toNat = 0 := by
      rw [← BitVec.toNat_inj]
      rfl
    rw [hret, forall_prop_of_true (Int.natCast_nonneg l), takenFrom_copied, ReplyFits,
      or_iff_right htype, or_iff_right hpos, hzero]
    simp only [PHOENIXD_HDRSZ] at hl ⊢
    split at hl <;> omega

end Reply

/-- A call whose message is answered stores what fits and what was received, and
tells it, exactly for the replies that fit. -/
theorem phoenixdRead_fits_iff (e : Endian) (attempts : Nat → Attempt)
    (stack : Nat → Nat → UInt8) (smsg rmsg : Msg) (c : ReadCall)
    (hsent : (msgSend e attempts stack (readRequest smsg c) rmsg).res = some EOK) :
    let reply := (msgSend e attempts stack (readRequest smsg c) rmsg).rmsg
    ∃ ret, phoenixdRead e attempts stack smsg rmsg c = some ret ∧
      ((0 ≤ ret.1 → TakenFrom c reply ret) ↔
        c.len > MSG_MAXLEN - PHOENIXD_HDRSZ ∨ ReplyFits c reply) := by
  intro reply
  by_cases hlen : c.len > MSG_MAXLEN - PHOENIXD_HDRSZ
  · have hneg : ¬ (0 : Int) ≤ -EINVAL := by decide
    refine ⟨(-EINVAL, []), if_pos hlen, ?_⟩
    exact iff_of_true (fun h => absurd h hneg) (Or.inl hlen)
  · refine ⟨readReply reply, ?_, ?_⟩
    · rw [phoenixdRead, if_neg hlen]
      simp only [hsent, Option.map_some]
      rfl
    · rw [readReply_fits_iff, or_iff_right hlen]

/-- A device that takes every byte and hands over the given message. -/
def answering (reply : Msg) : Nat → Attempt := fun _ => ⟨fun _ => 1, [.ok reply.wire]⟩

def emptyMsg : Msg := ⟨0, 0, fun _ => 0⟩

/-- Two bytes, as the server sends them. -/
def twoBytes : Msg := phdMsg 3 0 2 [0x41, 0x42]

theorem phoenixdRead_fits_two_bytes :
    let reply := (msgSend .little (answering twoBytes) (fun _ _ => 0)
      (readRequest emptyMsg ⟨3, 0, 2⟩) emptyMsg).rmsg
    ∃ ret, phoenixdRead .little (answering twoBytes) (fun _ _ => 0) emptyMsg emptyMsg ⟨3, 0, 2⟩ =
        some ret ∧
      ((0 ≤ ret.1 → TakenFrom ⟨3, 0, 2⟩ reply ret) ↔
        2 > MSG_MAXLEN - PHOENIXD_HDRSZ ∨ ReplyFits ⟨3, 0, 2⟩ reply) :=
  phoenixdRead_fits_iff .little (answering twoBytes) (fun _ _ => 0) emptyMsg emptyMsg ⟨3, 0, 2⟩
    (by decide +kernel)

/-- The same reply for a caller with room for one byte. -/
theorem reply_beyond_the_buffer :
    ¬ ∀ (e : Endian) (attempts : Nat → Attempt) (stack : Nat → Nat → UInt8) (smsg rmsg : Msg)
      (c : ReadCall),
      (msgSend e attempts stack (readRequest smsg c) rmsg).res = some EOK →
      ∀ ret, phoenixdRead e attempts stack smsg rmsg c = some ret → 0 ≤ ret.1 →
        TakenFrom c (msgSend e attempts stack (readRequest smsg c) rmsg).rmsg ret := by
  intro h
  have hret : phoenixdRead .little (answering twoBytes) (fun _ _ => 0) emptyMsg emptyMsg
      ⟨3, 0, 1⟩ = some (2, [0x41, 0x42]) := by decide +kernel
  have htaken := h .little (answering twoBytes) (fun _ _ => 0) emptyMsg emptyMsg ⟨3, 0, 1⟩
    (by decide +kernel) _ hret (by decide)
  exact absurd htaken.room (by decide)

end Plo.Phfs
