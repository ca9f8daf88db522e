import Plo.Base.Run
import Plo.Phfs.Phoenixd

/-!
Which bytes a read through `phoenixd` returns. A reply is taken for the answer
of the call under way whatever request it answers, so the bytes are those of the
file at the position only as long as nothing for another handle or position is
in flight when a call starts.
-/
namespace Plo.Phfs

section Messages

theorem deserializeMsgPhd_overlay (mem : Nat → UInt8) (handle pos len : BitVec 32)
    (data : List UInt8) :
    deserializeMsgPhd (overlay mem 0 (serializeMsgPhd handle pos len ++ data)) =
      ⟨handle, pos, len⟩ := by
  have hhandle : leWord (overlay mem 0 (serializeMsgPhd handle pos len ++ data)) = handle :=
    leWord_wordByte fun k hk => by interval_cases k <;> rfl
  have hpos : leWord (fun k => overlay mem 0 (serializeMsgPhd handle pos len ++ data) (4 + k)) =
      pos := leWord_wordByte fun k hk => by interval_cases k <;> rfl
  have hlen : leWord (fun k => overlay mem 0 (serializeMsgPhd handle pos len ++ data) (8 + k)) =
      len := leWord_wordByte fun k hk => by interval_cases k <;> rfl
  simp only [deserializeMsgPhd, deserialize32, hhandle, hpos, hlen]

theorem deserializeMsgPhd_congr {f g : Nat → UInt8} (h : ∀ i, i < 12 → f i = g i) :
    deserializeMsgPhd f = deserializeMsgPhd g := by
  have hhandle : leWord f = leWord g := leWord_congr fun k hk => h k (by omega)
  have hpos : leWord (fun k => f (4 + k)) = leWord (fun k => g (4 + k)) :=
    leWord_congr fun k hk => h (4 + k) (by omega)
  have hlen : leWord (fun k => f (8 + k)) = leWord (fun k => g (8 + k)) :=
    leWord_congr fun k hk => h (8 + k) (by omega)
  simp only [deserializeMsgPhd, deserialize32, hhandle, hpos, hlen]

theorem length_serializeMsgPhd (handle pos len : BitVec 32) :
    (serializeMsgPhd handle pos len).length = 12 := rfl

variable (handle pos len : BitVec 32) (data : List UInt8)

theorem getlen_phdMsg (h : data.length ≤ 500) :
    (phdMsg handle pos len data).getlen = 12 + data.length := by
  have hnat : (BitVec.ofNat 32 (12 + data.length)).toNat = 12 + data.length := by
    rw [BitVec.toNat_ofNat, Nat.mod_eq_of_lt (by omega)]
  have hset := getlen_setlen ((⟨0, 0, overlay (fun _ => 0) 0
    (serializeMsgPhd handle pos len ++ data)⟩ : Msg).settype MSG_READ)
    (l := BitVec.ofNat 32 (12 + data.length)) (by rw [hnat]; omega)
  rw [hnat] at hset
  exact hset

theorem gettype_phdMsg : (phdMsg handle pos len data).gettype = MSG_READ := by
  have hset := gettype_setlen ((⟨0, 0, overlay (fun _ => 0) 0
    (serializeMsgPhd handle pos len ++ data)⟩ : Msg).settype MSG_READ)
    (BitVec.ofNat 32 (12 + data.length))
  rw [gettype_settype] at hset
  exact hset

theorem deserializeMsgPhd_delivered (h : data.length ≤ 500) (junk : Nat → UInt8) :
    deserializeMsgPhd ((phdMsg handle pos len data).delivered junk).data = ⟨handle, pos, len⟩ := by
  rw [← deserializeMsgPhd_overlay (fun _ => 0) handle pos len data]
  apply deserializeMsgPhd_congr
  intro i hi
  have hlen := getlen_phdMsg handle pos len data h
  simp only [Msg.delivered, hlen, if_pos (by omega : i < 12 + data.length)]
  rfl

theorem data_delivered (h : data.length ≤ 500) (junk : Nat → UInt8) :
    (List.range data.length).map
      (fun i => ((phdMsg handle pos len data).delivered junk).data (12 + i)) = data := by
  have hlen := getlen_phdMsg handle pos len data h
  apply List.ext_getElem
  · simp
  · intro i hi hi'
    have hlt : 12 + i < 12 + data.length := by omega
    simp only [List.getElem_map, List.getElem_range, Msg.delivered, hlen, if_pos hlt]
    change overlay (fun _ => 0) 0 (serializeMsgPhd handle pos len ++ data) (12 + i) = data[i]
    rw [overlay_append, length_serializeMsgPhd, overlay, if_pos (by omega),
      Nat.zero_add, Nat.add_sub_cancel_left, List.getD_eq_getElem?_getD,
      List.getElem?_eq_getElem hi', Option.getD_some]

theorem readReply_data (h : data.length ≤ 500) (junk : Nat → UInt8) :
    readReply ((phdMsg handle pos (BitVec.ofNat 32 data.length) data).delivered junk) =
      ((data.length : Int), data) := by
  have hnat (n : Nat) (hn : n ≤ 512) : (BitVec.ofNat 32 n).toNat = n := by
    rw [BitVec.toNat_ofNat, Nat.mod_eq_of_lt (by omega)]
  have hint : ¬(BitVec.ofNat 32 data.length).toInt < 0 := by
    rw [BitVec.toInt_eq_toNat_cond, hnat _ (by omega), if_pos (by omega)]
    omega
  have htype := gettype_phdMsg handle pos (BitVec.ofNat 32 data.length) data
  have hlen := getlen_phdMsg handle pos (BitVec.ofNat 32 data.length) data h
  have hroom : (BitVec.ofNat 32 (12 + data.length) - BitVec.ofNat 32 12).toNat =
      data.length := by
    rw [BitVec.toNat_sub, hnat _ (by omega), hnat _ (by omega)]
    omega
  have hbytes := data_delivered handle pos (BitVec.ofNat 32 data.length) data h junk
  have hio := deserializeMsgPhd_delivered handle pos (BitVec.ofNat 32 data.length) data h junk
  simp only [readReply, gettype_delivered, htype, ne_eq, not_true_eq_false, if_false, hio,
    if_neg hint, getlen_delivered, hlen, PHOENIXD_HDRSZ, hroom,
    hnat _ (by omega : data.length ≤ 512), gt_iff_lt, Nat.lt_irrefl, hbytes]

theorem readReply_error (junk : Nat → UInt8) :
    readReply ((phdMsg handle pos (-1) []).delivered junk) = (- EIO, []) := by
  have htype := gettype_phdMsg handle pos (-1) []
  have hio := deserializeMsgPhd_delivered handle pos (-1) [] (by decide) junk
  simp only [readReply, gettype_delivered, htype, ne_eq, not_true_eq_false, if_false, hio]
  rfl

end Messages

/-- A request for the handle and the position of a call. -/
def Asks (req : Msg) (c : ReadCall) : Prop :=
  (deserializeMsgPhd req.data).handle = c.fd ∧ (deserializeMsgPhd req.data).pos.toNat = c.offs

/-- A call that succeeds returns bytes of its file at its position. -/
def Return.Sound (files : BitVec 32 → Option (List UInt8)) (r : Return) : Prop :=
  0 ≤ r.res → ∃ file, files r.call.fd = some file ∧ r.bytes <+: file.drop r.call.offs ∧
    (r.bytes.length : Int) = r.res

theorem sound_of_neg {files : BitVec 32 → Option (List UInt8)} {c : ReadCall} {res : Int}
    (h : res < 0) (bytes : List UInt8) : (Return.mk c res bytes).Sound files :=
  fun hres => absurd hres (Int.not_le.mpr h)

theorem asks_readRequest (smsg : Msg) {c : ReadCall} (hoffs : c.offs < 2 ^ 32) (sum : BitVec 32) :
    Asks ((readRequest smsg c).setcsum sum) c := by
  have hheader := deserializeMsgPhd_overlay smsg.data c.fd (BitVec.ofNat 32 c.offs)
    (BitVec.ofNat 32 c.len) []
  rw [List.append_nil] at hheader
  change Asks ⟨_, _, overlay smsg.data 0 _⟩ c
  simp only [Asks, hheader, BitVec.toNat_ofNat, Nat.mod_eq_of_lt hoffs, and_self]

/-- An answer to a request for the same handle and position is a good one. -/
theorem readReply_sound (files : BitVec 32 → Option (List UInt8)) (pos : BitVec 32) {req : Msg}
    {c : ReadCall} (h : Asks req c) (junk : Nat → UInt8) :
    (Return.mk c (readReply ((serverReply files pos req).delivered junk)).1
      (readReply ((serverReply files pos req).delivered junk)).2).Sound files := by
  simp only [serverReply, h.1, h.2]
  cases hfile : files c.fd with
  | none =>
      simp only [readReply_error]
      exact sound_of_neg (by decide) []
  | some file =>
      simp only [Return.Sound]
      have hlen : ((file.drop c.offs).take
          (min (deserializeMsgPhd req.data).len.toNat (MSG_MAXLEN - PHOENIXD_HDRSZ))).length ≤
          500 := by
        rw [List.length_take]
        exact Nat.le_trans (Nat.min_le_left _ _) (Nat.min_le_right _ _)
      rw [readReply_data _ _ _ hlen]
      intro _
      exact ⟨file, hfile, List.take_prefix _ _, rfl⟩

namespace Link
variable {files : BitVec 32 → Option (List UInt8)}

/-- Everything in flight is for the handle and the position of the call. -/
structure Quiet (s : Link) (c : ReadCall) : Prop where
  requests : ∀ req ∈ s.requests, Asks req c
  replies : ∀ reply ∈ s.replies, Asks reply.asked c

/-- A call that is sent has a position the request can hold, and starts with
nothing in flight for another handle or position. -/
def Fresh (s : Link) : Event → Prop
  | .call c _ => s.sending = none → c.len ≤ MSG_MAXLEN - PHOENIXD_HDRSZ →
      c.offs < 2 ^ 32 ∧ s.Quiet c
  | _ => True

structure Inv (files : BitVec 32 → Option (List UInt8)) (s : Link) : Prop where
  answers : ∀ reply ∈ s.replies, ∃ pos, reply.msg = serverReply files pos reply.asked
  sending : ∀ t, s.sending = some t → Asks t.smsg t.call ∧ s.Quiet t.call
  returned : ∀ r ∈ s.returned, r.Sound files

theorem Inv.return_ {s : Link} (h : s.Inv files) {c : ReadCall} {res : Int} {bytes : List UInt8}
    (hret : (Return.mk c res bytes).Sound files) : (s.return_ c res bytes).Inv files := by
  refine ⟨h.answers, fun t ht => ?_, ?_⟩
  · cases ht
  · intro r hr
    cases List.mem_append.mp hr with
    | inl hold => exact h.returned r hold
    | inr hnew => exact List.mem_singleton.mp hnew ▸ hret

theorem Inv.retry {s : Link} (h : s.Inv files) {t : Sending} (ht : s.sending = some t) :
    (s.retry t).Inv files := by
  simp only [Link.retry]
  split
  · refine ⟨h.answers, fun t' ht' => ?_, h.returned⟩
    cases ht'
    exact ⟨(h.sending t ht).1, (h.sending t ht).2.requests, (h.sending t ht).2.replies⟩
  · exact h.return_ (sound_of_neg (by decide) [])

/-- Replies are taken off the link. -/
theorem Inv.take {s : Link} (h : s.Inv files) {replies : List Reply}
    (hsub : ∀ reply ∈ replies, reply ∈ s.replies) :
    ({ s with replies := replies } : Link).Inv files := by
  refine ⟨fun reply hreply => h.answers reply (hsub reply hreply), fun t ht => ?_, h.returned⟩
  obtain ⟨hasks, hquiet⟩ := h.sending t ht
  exact ⟨hasks, hquiet.requests, fun reply hreply => hquiet.replies reply (hsub reply hreply)⟩

/-- The server answers the first request on the link. -/
theorem Inv.serve {s : Link} (h : s.Inv files) {req : Msg} {requests : List Msg}
    (hreq : s.requests = req :: requests) (pos : BitVec 32) :
    ({ s with
        requests := requests
        replies := s.replies ++ [⟨req, serverReply files pos req⟩] } : Link).Inv files := by
  refine ⟨fun reply hreply => ?_, fun t ht => ?_, h.returned⟩
  · cases List.mem_append.mp hreply with
    | inl hold => exact h.answers reply hold
    | inr hnew => exact ⟨pos, by rw [List.mem_singleton.mp hnew]⟩
  · obtain ⟨hasks, hquiet⟩ := h.sending t ht
    refine ⟨hasks, fun req' hreq' => ?_, fun reply hreply => ?_⟩
    · exact hquiet.requests req' (hreq ▸ List.mem_cons_of_mem req hreq')
    · cases List.mem_append.mp hreply with
      | inl hold => exact hquiet.replies reply hold
      | inr hnew =>
          rw [List.mem_singleton.mp hnew]
          exact hquiet.requests req (hreq ▸ List.mem_cons_self)

theorem Inv.step {s : Link} (h : s.Inv files) {e : Event} (hfresh : s.Fresh e) :
    (s.step files e).Inv files := by
  cases e with
  | call c smsg =>
      simp only [Link.step]
      split
      · exact h
      · next hidle =>
        split
        · exact h.return_ (sound_of_neg (by decide) [])
        · next hlen =>
          obtain ⟨hoffs, hquiet⟩ := hfresh hidle (Nat.not_lt.mp hlen)
          refine ⟨h.answers, fun t ht => ?_, h.returned⟩
          cases ht
          exact ⟨asks_readRequest smsg hoffs _, hquiet.requests, hquiet.replies⟩
  | write ok =>
      simp only [Link.step]
      split
      · next c smsg retr hsending =>
        obtain ⟨hasks, hquiet⟩ := h.sending _ hsending
        split
        · refine ⟨h.answers, fun t ht => ?_, h.returned⟩
          cases ht
          refine ⟨hasks, fun req hreq => ?_, hquiet.replies⟩
          cases List.mem_append.mp hreq with
          | inl hold => exact hquiet.requests req hold
          | inr hnew => exact List.mem_singleton.mp hnew ▸ hasks
        · exact h.retry hsending
      · exact h
  | serve pos =>
      simp only [Link.step]
      split
      · next req requests hreq =>
        exact h.serve hreq pos
      · exact h
  | receive junk =>
      simp only [Link.step]
      split
      · next c smsg retr reply replies hsending hreplies =>
        have hmem : reply ∈ s.replies := hreplies ▸ List.mem_cons_self
        obtain ⟨pos, hmsg⟩ := h.answers reply hmem
        have hrest : ({ s with replies := replies } : Link).Inv files :=
          h.take fun reply' hreply' => hreplies ▸ List.mem_cons_of_mem reply hreply'
        refine hrest.return_ ?_
        rw [hmsg]
        exact readReply_sound files pos ((h.sending _ hsending).2.replies reply hmem) junk
      · exact h
  | timeout =>
      simp only [Link.step]
      split
      · next c smsg retr hsending => exact h.retry hsending
      · exact h
  | lose => exact h.take fun reply hreply => List.mem_of_mem_tail hreply

end Link

/-- In every run whose calls start fresh, whatever is delayed, lost or sent again,
a read that succeeds returns bytes of its file at its position. -/
theorem fresh_reads_return_their_bytes (files : BitVec 32 → Option (List UInt8)) (s : Link)
    (hrun : Reachable (Link.step files) Link.Fresh .init s) :
    ∀ r ∈ s.returned, r.Sound files := by
  have hinit : Link.init.Inv files :=
    ⟨fun _ h => absurd h List.not_mem_nil, fun _ h => (Option.some_ne_none _ h.symm).elim,
      fun _ h => absurd h List.not_mem_nil⟩
  exact (hrun.invariant (I := Link.Inv files) hinit (fun s e h hfresh => h.step hfresh)).returned

def oneFile : BitVec 32 → Option (List UInt8)
  | 1 => some [0, 1, 2, 3, 4, 5, 6, 7]
  | _ => none

def readFirst : Event := .call ⟨1, 0, 4⟩ ⟨0, 0, fun _ => 0⟩

/-- The request of the read times out once and is answered twice. -/
def answeredTwice : List Event :=
  [.write true, .timeout, .write true, .serve 4, .serve 4, .receive (fun _ => 0)]

theorem fresh_reads_return_their_bytes_twice :
    let s := (readFirst :: answeredTwice).foldl (Link.step oneFile) .init
    s.returned = [⟨⟨1, 0, 4⟩, 4, [0, 1, 2, 3]⟩] ∧ ∀ r ∈ s.returned, r.Sound oneFile := by
  intro s
  have hcall : Link.init.Fresh readFirst := fun _ _ =>
    ⟨by decide, fun _ h => absurd h List.not_mem_nil, fun _ h => absurd h List.not_mem_nil⟩
  have hrest : ∀ e ∈ answeredTwice, ∀ s : Link, s.Fresh e := by
    simp [answeredTwice, Link.Fresh]
  have hrun : Reachable (Link.step oneFile) Link.Fresh .init s :=
    Reachable.foldl (.step .init hcall) answeredTwice hrest
  exact ⟨by decide +kernel, fresh_reads_return_their_bytes oneFile s hrun⟩

/-- The second answer is still there when the next four bytes are read, and is
taken for theirs. -/
theorem stale_reply_taken :
    let next : List Event :=
      [.call ⟨1, 4, 4⟩ ⟨0, 0, fun _ => 0⟩, .write true, .receive (fun _ => 0)]
    let s := (readFirst :: answeredTwice ++ next).foldl (Link.step oneFile) .init
    ∃ r ∈ s.returned, ¬r.Sound oneFile := by
  refine ⟨⟨⟨1, 4, 4⟩, 4, [0, 1, 2, 3]⟩, by decide +kernel, fun hsound => ?_⟩
  obtain ⟨file, hfile, hstarts, _⟩ := hsound (by decide)
  cases hfile
  exact absurd hstarts (by decide)

end Plo.Phfs
