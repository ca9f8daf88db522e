import Mathlib.Data.List.Basic
import Plo.Phfs.Msg

/-!
Frames read back. The bytes of a message on the wire do not depend on the host,
and neither does the checksum; a receiver that has taken the first bytes of a
frame holds them in its header buffer and in the data of its message, however
the device cut the stream.
-/
namespace Plo.Phfs

/-- Serialized in place, a word lies in memory least significant byte first. -/
theorem byte_serialize32 (e : Endian) (w : BitVec 32) (k : Nat) (hk : k < 4) :
    e.byte (serialize32 e w) k = wordByte w k := by
  cases e with
  | little => rfl
  | big =>
      simp only [Endian.byte, serialize32]
      rw [wordByte_leWord _ _ (by omega), show 3 - (3 - k) = k by omega]

def Msg.frameByte (m : Msg) (k : Nat) : UInt8 :=
  if k < 4 then wordByte m.csum k
  else if k < MSG_HDRSZ then wordByte m.type (k - 4)
  else m.data (k - MSG_HDRSZ)

theorem byte_serializeHeaders (e : Endian) (m : Msg) (k : Nat) :
    (serializeHeaders e m).byte e k = m.frameByte k := by
  simp only [Msg.byte, Msg.frameByte, serializeHeaders]
  split
  · next h => exact byte_serialize32 e m.csum k h
  · split
    · next h4 h8 =>
      simp only [MSG_HDRSZ] at h8
      exact byte_serialize32 e m.type (k - 4) (by omega)
    · rfl

section Checksum

/-- The sum of the data on top of the bytes of the type word, in any order. -/
def frameSum (len : Nat) (type : BitVec 32) (data : Nat → UInt8) : BitVec 16 :=
  (List.range len).foldl (fun csum k => csum + (data k).toBitVec.setWidth 16)
    (((wordByte type 0).toBitVec.setWidth 16 + (wordByte type 1).toBitVec.setWidth 16) +
      ((wordByte type 2).toBitVec.setWidth 16 + (wordByte type 3).toBitVec.setWidth 16))

theorem msgCsum_eq (e : Endian) (m : Msg) :
    msgCsum e m = (frameSum m.getlen m.type m.data + m.getseq.setWidth 16).setWidth 32 := by
  have hsplit : List.range' 4 (4 + m.getlen) =
      [4, 5, 6, 7] ++ (List.range m.getlen).map (8 + ·) := by
    rw [← List.range'_append_1, List.range_eq_range', List.map_add_range']
    rfl
  have hdata (k : Nat) : m.byte e (8 + k) = m.data k := by
    simp only [Msg.byte, MSG_HDRSZ]
    rw [if_neg (by omega), if_neg (by omega), Nat.add_sub_cancel_left]
  have htype : [4, 5, 6, 7].foldl (fun csum k => csum + (m.byte e k).toBitVec.setWidth 16)
      (0 : BitVec 16) =
      ((wordByte m.type 0).toBitVec.setWidth 16 + (wordByte m.type 1).toBitVec.setWidth 16) +
        ((wordByte m.type 2).toBitVec.setWidth 16 + (wordByte m.type 3).toBitVec.setWidth 16) := by
    have hsum (a b c d : BitVec 16) : 0 + a + b + c + d = (a + b) + (c + d) ∧
        0 + d + c + b + a = (a + b) + (c + d) := by
      simp only [BitVec.ofNat_eq_ofNat, BitVec.zero_add]
      constructor <;> ac_rfl
    cases e with
    | little => exact (hsum _ _ _ _).1
    | big => exact (hsum _ _ _ _).2
  simp only [msgCsum, hsplit, List.foldl_append, htype, List.foldl_map, hdata, frameSum]

theorem getLsbD_lowMask (i : Nat) : (0xffff#32).getLsbD i = decide (i < 16) := by
  rw [BitVec.getLsbD_ofNat, Nat.testBit_two_pow_sub_one 16 i]
  by_cases hlt : i < 16
  · simp [hlt, Nat.lt_trans hlt (by decide : 16 < 32)]
  · simp [hlt]

theorem getseq_setcsum (m : Msg) (c : BitVec 32) : (m.setcsum c).getseq = m.getseq := by
  apply BitVec.eq_of_getLsbD_eq
  intro i hi
  have hmask : (0xffff#32).getLsbD (16 + i) = false := by
    rw [getLsbD_lowMask]
    exact decide_eq_false (by omega)
  simp only [Msg.getseq, Msg.setcsum, BitVec.getLsbD_ushiftRight, BitVec.getLsbD_or,
    BitVec.getLsbD_and, BitVec.getLsbD_not, BitVec.ofNat_eq_ofNat, hmask, Bool.and_false,
    Bool.or_false, Bool.not_false, Bool.and_true]
  by_cases h : 16 + i < 32
  · simp only [h, decide_true, Bool.and_true]
  · simp only [BitVec.getLsbD_of_ge m.csum (16 + i) (by omega), Bool.false_and]

/-- The checksum does not depend on itself, nor on the host. -/
theorem msgCsum_setcsum (e e' : Endian) (m : Msg) (c : BitVec 32) :
    msgCsum e' (m.setcsum c) = msgCsum e m := by
  rw [msgCsum_eq, msgCsum_eq, getseq_setcsum]
  rfl

theorem getcsum_setcsum (e : Endian) (m : Msg) :
    (m.setcsum (msgCsum e m)).getcsum = msgCsum e m := by
  rw [msgCsum_eq]
  generalize frameSum m.getlen m.type m.data + m.getseq.setWidth 16 = c
  apply BitVec.eq_of_getLsbD_eq
  intro i hi
  simp only [Msg.getcsum, Msg.setcsum, BitVec.getLsbD_or, BitVec.getLsbD_and, BitVec.getLsbD_not,
    BitVec.ofNat_eq_ofNat, getLsbD_lowMask, BitVec.getLsbD_setWidth, hi, decide_true, Bool.true_and]
  by_cases hlt : i < 16
  · simp [hlt]
  · simp [hlt, BitVec.getLsbD_of_ge c i (by omega)]

theorem gettype_settype (m : Msg) (t : BitVec 32) : (m.settype t).gettype = t &&& 0xffff := by
  apply BitVec.eq_of_getLsbD_eq
  intro i hi
  simp only [Msg.gettype, Msg.settype, BitVec.getLsbD_or, BitVec.getLsbD_and, BitVec.getLsbD_not,
    BitVec.ofNat_eq_ofNat, getLsbD_lowMask]
  by_cases hlt : i < 16
  · simp [hlt]
  · simp [hlt]

theorem gettype_setlen (m : Msg) (l : BitVec 32) : (m.setlen l).gettype = m.gettype := by
  apply BitVec.eq_of_getLsbD_eq
  intro i hi
  simp only [Msg.gettype, Msg.setlen, BitVec.getLsbD_or, BitVec.getLsbD_and,
    BitVec.getLsbD_shiftLeft, BitVec.ofNat_eq_ofNat, getLsbD_lowMask]
  by_cases hlt : i < 16
  · simp [hlt]
  · simp [hlt]

theorem getlen_setlen (m : Msg) {l : BitVec 32} (hl : l.toNat < 2 ^ 16) :
    (m.setlen l).getlen = l.toNat := by
  rw [Msg.getlen]
  congr 1
  apply BitVec.eq_of_getLsbD_eq
  intro i hi
  simp only [Msg.setlen, BitVec.getLsbD_ushiftRight, BitVec.getLsbD_or, BitVec.getLsbD_and,
    BitVec.getLsbD_shiftLeft, getLsbD_lowMask]
  by_cases hlt : i < 16
  · have hin : 16 + i < 32 := by omega
    simp [hin]
  · have hout : ¬16 + i < 32 := by omega
    have hzero : l.getLsbD i = false := by
      rw [BitVec.getLsbD, Nat.testBit_lt_two_pow]
      exact Nat.lt_of_lt_of_le hl (Nat.pow_le_pow_right (by decide) (by omega))
    simp [hout, hzero]

end Checksum

section Wire

/-- A device that takes every byte; its state is what it was given so far. -/
def logWrite (d buff : List UInt8) : List UInt8 × Int := (d ++ buff, buff.length)

theorem writeBytes_logWrite (d cs : List UInt8) :
    writeBytes logWrite d cs = (d ++ cs.flatMap escape, EOK) := by
  induction cs generalizing d with
  | nil => simp [writeBytes]
  | cons c cs ih =>
      simp only [writeBytes, logWrite, List.flatMap_cons, ← List.append_assoc]
      exact ih _

def Msg.wire (m : Msg) : List UInt8 :=
  MSG_MARK :: ((List.range (MSG_HDRSZ + m.getlen)).map m.frameByte).flatMap escape

theorem msgWrite_logWrite (e : Endian) (m : Msg) :
    msgWrite logWrite e [] m = (m.wire, serializeHeaders e m, ((MSG_HDRSZ + m.getlen : Nat) : Int)) := by
  have hbytes : (List.range (MSG_HDRSZ + m.getlen)).map ((serializeHeaders e m).byte e) =
      (List.range (MSG_HDRSZ + m.getlen)).map m.frameByte :=
    List.map_congr_left fun k _ => byte_serializeHeaders e m k
  simp only [msgWrite, logWrite, writeBytes_logWrite, hbytes, Msg.wire]
  rfl

end Wire

section Receive
variable {e : Endian} {m : Msg} {r : Receiver} {n : Nat}

/-- The receiver holds the first `n` bytes of the frame of `m`. -/
structure Received (m : Msg) (n : Nat) (r : Receiver) : Prop where
  state : r.state = .frame
  escfl : r.escfl = false
  len : r.len = n
  headers : ∀ i < 8, i < n → r.headers i = m.frameByte i
  csum : 8 ≤ n → r.msg.csum = m.csum
  type : 8 ≤ n → r.msg.type = m.type
  data : ∀ i, 8 + i < n → r.msg.data i = m.data i

section Step
variable (hstate : r.state = .frame) (hlen : r.len ≠ MSG_HDRSZ + MSG_MAXLEN)
include hstate hlen

theorem step_esc (e : Endian) (hesc : r.escfl = false) :
    r.step e MSG_ESC = .ok { r with escfl := true } := by
  have hne : MSG_ESC ≠ MSG_MARK := by decide
  simp only [Receiver.step, hstate, if_neg hlen, if_neg hne, hesc, and_self, if_true]

theorem step_plain {c : UInt8} (e : Endian) (hesc : r.escfl = false) (hmark : c ≠ MSG_MARK)
    (hescape : c ≠ MSG_ESC) : r.step e c = r.store e c := by
  simp only [Receiver.step, hstate, if_neg hlen, if_neg hmark, hescape, and_false, if_false, hesc,
    Bool.false_eq_true]

theorem step_escaped (e : Endian) (hesc : r.escfl = true) :
    r.step e MSG_ESCMARK = { r with escfl := false }.store e MSG_MARK ∧
      r.step e MSG_ESCESC = { r with escfl := false }.store e MSG_ESC := by
  have h₁ : MSG_ESCMARK ≠ MSG_MARK ∧ MSG_MARK ≠ MSG_ESCESC := by decide
  have h₂ : MSG_ESCESC ≠ MSG_MARK ∧ MSG_ESCESC ≠ MSG_ESCMARK := by decide
  constructor
  · simp only [Receiver.step, hstate, if_neg hlen, if_neg h₁.1, hesc, Bool.true_eq_false,
      false_and, if_false, if_true, if_neg h₁.2]
  · simp only [Receiver.step, hstate, if_neg hlen, if_neg h₂.1, hesc, Bool.true_eq_false,
      false_and, if_false, if_true, if_neg h₂.2]

/-- An escaped byte is stored as it was before escaping. -/
theorem foldlM_escape (e : Endian) (c : UInt8) (hesc : r.escfl = false) :
    (escape c).foldlM (Receiver.step e) r = r.store e c := by
  have hpair (x y : UInt8) : [x, y].foldlM (Receiver.step e) r =
      (r.step e x).bind (fun r => r.step e y) := by
    simp only [List.foldlM_cons, List.foldlM_nil, bind_pure]
    rfl
  have hclear : { { r with escfl := true } with escfl := false } = r := by rw [← hesc]
  have hsecond := step_escaped (r := { r with escfl := true }) hstate hlen e rfl
  rw [hclear] at hsecond
  by_cases hmark : c = MSG_MARK
  · subst hmark
    rw [show escape MSG_MARK = [MSG_ESC, MSG_ESCMARK] by decide, hpair, step_esc hstate hlen e hesc]
    exact hsecond.1
  · by_cases hescape : c = MSG_ESC
    · subst hescape
      rw [show escape MSG_ESC = [MSG_ESC, MSG_ESCESC] by decide, hpair, step_esc hstate hlen e hesc]
      exact hsecond.2
    · have hplain : escape c = [c] := if_neg (not_or.mpr ⟨hmark, hescape⟩)
      rw [hplain, List.foldlM_cons, step_plain hstate hlen e hesc hmark hescape]
      simp only [List.foldlM_nil, bind_pure]

end Step

theorem received_put (h : Received m n r) : Received m (n + 1) (r.put (m.frameByte n)) := by
  obtain ⟨hstate, hesc, rfl, hheaders, hcsum, htype, hdata⟩ := h
  rcases Nat.lt_trichotomy (r.len + 1) 8 with hlt | heq | hgt
  · -- the header is not complete yet
    have hhdr : r.len < 8 := by omega
    simp only [Receiver.put, MSG_HDRSZ, if_pos hhdr, if_neg hlt.ne]
    refine ⟨hstate, hesc, rfl, ?_, by omega, by omega, by omega⟩
    intro i hi hin
    dsimp only
    split
    · next h => rw [h]
    · exact hheaders i hi (by omega)
  · -- its last byte arrives and the words are read from it
    have hhdr : r.len < 8 := by omega
    have hall : ∀ i < 8, (if i = r.len then m.frameByte r.len else r.headers i) =
        m.frameByte i := by
      intro i hi
      split
      · next h => rw [h]
      · exact hheaders i hi (by omega)
    simp only [Receiver.put, MSG_HDRSZ, if_pos hhdr, if_pos heq, deserializeHeaders, deserialize32]
    have hcsum' : leWord (fun i => if i = r.len then m.frameByte r.len else r.headers i) =
        m.csum := by
      refine leWord_wordByte ?_
      intro k hk
      rw [hall k (by omega), Msg.frameByte, if_pos hk]
    have htype' : leWord (fun k => if 4 + k = r.len then m.frameByte r.len
        else r.headers (4 + k)) = m.type := by
      refine leWord_wordByte ?_
      intro k hk
      have hbyte : m.frameByte (4 + k) = wordByte m.type k := by
        simp only [Msg.frameByte, MSG_HDRSZ]
        rw [if_neg (by omega), if_pos (by omega), Nat.add_sub_cancel_left]
      exact (hall (4 + k) (by omega)).trans hbyte
    exact ⟨hstate, hesc, rfl, fun i hi _ => hall i hi, fun _ => hcsum', fun _ => htype', by omega⟩
  · -- data
    have hhdr : ¬ r.len < 8 := by omega
    simp only [Receiver.put, MSG_HDRSZ, if_neg hhdr, if_neg hgt.ne']
    refine ⟨hstate, hesc, rfl, fun i hi _ => hheaders i hi (by omega), fun _ => hcsum (by omega),
      fun _ => htype (by omega), ?_⟩
    intro i hi
    dsimp only
    split
    · next h =>
      simp only [Msg.frameByte, MSG_HDRSZ]
      rw [if_neg (by omega), if_neg (by omega), h]
    · exact hdata i (by omega)

theorem frameSum_congr {len : Nat} {type : BitVec 32} {f g : Nat → UInt8}
    (h : ∀ i < len, f i = g i) : frameSum len type f = frameSum len type g := by
  refine List.foldl_ext _ _ _ ?_
  intro csum k hk
  rw [h k (List.mem_range.mp hk)]

/-- Either the frame goes on, or it is complete and its checksum is right. -/
theorem store_frameByte (h : Received m n r)
    (hcsum : m.getcsum = msgCsum e m) :
    r.store e (m.frameByte n) =
      if n + 1 = 8 + m.getlen then
        .error ({ r.put (m.frameByte n) with state := .desyn },
          ((8 + m.getlen : Nat) : Int))
      else .ok (r.put (m.frameByte n)) := by
  have hput := received_put h
  simp only [Receiver.store, hput.len, MSG_HDRSZ]
  by_cases hlast : n + 1 = 8 + m.getlen
  · have hmsg : (r.put (m.frameByte n)).msg.csum = m.csum ∧
        (r.put (m.frameByte n)).msg.type = m.type :=
      ⟨hput.csum (by omega), hput.type (by omega)⟩
    have hlen : (r.put (m.frameByte n)).msg.getlen = m.getlen := by
      simp only [Msg.getlen, hmsg.2]
    have hok : (r.put (m.frameByte n)).msg.getcsum = msgCsum e (r.put (m.frameByte n)).msg := by
      have hsum : msgCsum e (r.put (m.frameByte n)).msg = msgCsum e m := by
        rw [msgCsum_eq, msgCsum_eq, hlen, hmsg.2,
          frameSum_congr fun i hi => hput.data i (by omega)]
        simp only [Msg.getseq, hmsg.1]
      rw [hsum, ← hcsum]
      simp only [Msg.getcsum, hmsg.1]
    rw [if_pos hlast, if_pos ⟨by omega, by rw [hlen]; omega⟩, if_neg (not_not.mpr hok), hlast]
  · rw [if_neg hlast, if_neg]
    rintro ⟨h8, hlen⟩
    have htype := hput.type h8
    rw [Msg.getlen, htype] at hlen
    exact hlast (hlen.trans (Nat.add_comm _ _))

/-- The rest of a frame, from any byte on: it is accepted at its last byte. -/
theorem foldlM_frame (hcsum : m.getcsum = msgCsum e m) (hlen : m.getlen ≤ MSG_MAXLEN)
    (k : Nat) (h : Received m n r) (hn : n + k + 1 = 8 + m.getlen) :
    ∃ r', Received m (8 + m.getlen) r' ∧
      (((List.range' n (k + 1)).map m.frameByte).flatMap escape).foldlM (Receiver.step e) r =
        .error ({ r' with state := .desyn }, ((8 + m.getlen : Nat) : Int)) := by
  simp only [MSG_MAXLEN] at hlen
  induction k generalizing n r with
  | zero =>
      refine ⟨r.put (m.frameByte n), hn ▸ received_put h, ?_⟩
      have hroom : r.len ≠ 8 + 512 := by rw [h.len]; omega
      rw [Nat.zero_add, List.range'_one, List.map_singleton, List.flatMap_singleton,
        foldlM_escape h.state hroom e _ h.escfl, store_frameByte h hcsum, if_pos (by omega)]
  | succ k ih =>
      obtain ⟨r', hr', hfold⟩ := ih (received_put h) (by omega)
      refine ⟨r', hr', ?_⟩
      have hroom : r.len ≠ 8 + 512 := by rw [h.len]; omega
      rw [List.range'_succ, List.map_cons, List.flatMap_cons, List.foldlM_append,
        foldlM_escape h.state hroom e _ h.escfl, store_frameByte h hcsum, if_neg (by omega)]
      exact hfold

theorem foldlM_noise (e : Endian) {noise : List UInt8} (hnoise : ∀ c ∈ noise, c ≠ MSG_MARK)
    (hstate : r.state = .desyn) : noise.foldlM (Receiver.step e) r = .ok r := by
  induction noise with
  | nil => rfl
  | cons c noise ih =>
      have hc := hnoise c List.mem_cons_self
      rw [List.foldlM_cons]
      simp only [Receiver.step, hstate, if_neg hc]
      exact ih fun c hc => hnoise c (List.mem_cons_of_mem _ hc)

/-- A return comes at the same byte however the stream is cut. -/
theorem readLoop_returns {r' : Receiver} {res : Int} (chunks : List (List UInt8))
    {stream : List UInt8} (hstream : stream.foldlM (Receiver.step e) r = .error (r', res))
    {suffix : List UInt8} (hchunks : chunks.flatten = stream ++ suffix) :
    (readLoop e (chunks.map .ok) r).res = some res ∧
      (readLoop e (chunks.map .ok) r).state = r'.state ∧
      (readLoop e (chunks.map .ok) r).msg = r'.msg := by
  have hall : chunks.flatten.foldlM (Receiver.step e) r = .error (r', res) := by
    rw [hchunks, List.foldlM_append, hstream]
    rfl
  clear hstream hchunks
  induction chunks generalizing r with
  | nil => cases hall
  | cons chunk chunks ih =>
      rw [List.flatten_cons, List.foldlM_append] at hall
      simp only [List.map_cons, readLoop]
      cases hchunk : chunk.foldlM (Receiver.step e) r with
      | error ret =>
          rw [hchunk] at hall
          cases hall
          exact ⟨rfl, rfl, rfl⟩
      | ok r₁ =>
          rw [hchunk] at hall
          exact ih hall

/-- A frame on the wire is received, after any bytes that are no mark, with
anything following, and cut by the device in any way. -/
theorem msgRead_wire (hcsum : m.getcsum = msgCsum e m) (hlen : m.getlen ≤ MSG_MAXLEN)
    {noise suffix : List UInt8} (hnoise : ∀ c ∈ noise, c ≠ MSG_MARK)
    {chunks : List (List UInt8)} (headers : Nat → UInt8) (rmsg : Msg)
    (hchunks : chunks.flatten = noise ++ m.wire ++ suffix) :
    let out := msgRead e headers (chunks.map .ok) .desyn rmsg
    out.res = some ((MSG_HDRSZ + m.getlen : Nat) : Int) ∧ out.state = .desyn ∧
      out.msg.csum = m.csum ∧ out.msg.type = m.type ∧
      ∀ i < m.getlen, out.msg.data i = m.data i := by
  intro out
  obtain ⟨r', hr', hframe⟩ := foldlM_frame (r := ⟨.frame, false, 0, headers, rmsg⟩) (n := 0) hcsum
    hlen (7 + m.getlen) ⟨rfl, rfl, rfl, by omega, by omega, by omega, by omega⟩
    (show 0 + (7 + m.getlen) + 1 = 8 + m.getlen by omega)
  have hstream : (noise ++ m.wire).foldlM (Receiver.step e) ⟨.desyn, false, 0, headers, rmsg⟩ =
      .error ({ r' with state := .desyn }, ((8 + m.getlen : Nat) : Int)) := by
    have hcount : List.range (MSG_HDRSZ + m.getlen) = List.range' 0 (7 + m.getlen + 1) := by
      rw [List.range_eq_range', show 7 + m.getlen + 1 = 8 + m.getlen by omega]
    rw [← hcount] at hframe
    rw [List.foldlM_append, foldlM_noise e hnoise rfl]
    exact hframe
  obtain ⟨hres, hstate, hmsg⟩ := readLoop_returns chunks hstream hchunks
  have hmsg' : out.msg = r'.msg := hmsg
  refine ⟨hres, hstate, hmsg' ▸ hr'.csum (by omega), hmsg' ▸ hr'.type (by omega), ?_⟩
  intro i hi
  rw [hmsg']
  exact hr'.data i (show 8 + i < 8 + m.getlen by omega)

end Receive

/-- What `msg_write` puts on the wire is received again: after any bytes that are
no mark, with anything following, and cut by the device in any way. -/
theorem msgRead_msgWrite (es er : Endian) (m : Msg) (hlen : m.getlen ≤ MSG_MAXLEN)
    (noise suffix : List UInt8) (hnoise : ∀ c ∈ noise, c ≠ MSG_MARK)
    (chunks : List (List UInt8)) (headers : Nat → UInt8) (rmsg : Msg)
    (hchunks : chunks.flatten =
      noise ++ (msgWrite logWrite es [] (m.setcsum (msgCsum es m))).1 ++ suffix) :
    let out := msgRead er headers (chunks.map .ok) .desyn rmsg
    out.res = some ((MSG_HDRSZ + m.getlen : Nat) : Int) ∧ out.state = .desyn ∧
      out.msg.getcsum = msgCsum es m ∧ out.msg.getseq = m.getseq ∧
      out.msg.gettype = m.gettype ∧ out.msg.getlen = m.getlen ∧
      ∀ i < m.getlen, out.msg.data i = m.data i := by
  intro out
  have hcsum : (m.setcsum (msgCsum es m)).getcsum = msgCsum er (m.setcsum (msgCsum es m)) := by
    rw [getcsum_setcsum, msgCsum_setcsum es]
  rw [msgWrite_logWrite] at hchunks
  obtain ⟨hres, hstate, hc, ht, hdata⟩ := msgRead_wire hcsum hlen hnoise headers rmsg hchunks
  refine ⟨hres, hstate, ?_, ?_, ?_, ?_, hdata⟩
  · rw [← getcsum_setcsum es m, Msg.getcsum, hc, Msg.getcsum]
  · rw [← getseq_setcsum m (msgCsum es m), Msg.getseq, hc, Msg.getseq]
  · rw [Msg.gettype, ht]
    rfl
  · rw [Msg.getlen, ht]
    rfl

/-- A message whose type word and data hold marks and escapes. -/
def markedMsg : Msg := ⟨0x00050000, 0x0003007e, fun k => if k = 1 then 0x7d else 0x7e⟩

/-- It arrives through a device that hands over one byte at a time, after noise. -/
theorem msgRead_msgWrite_marked :
    (msgRead .little (fun _ => 0) ((([0x20, 0x5e] ++ (msgWrite logWrite .big []
      (markedMsg.setcsum (msgCsum .big markedMsg))).1).map fun c => [c]).map .ok) .desyn
      ⟨0, 0, fun _ => 0⟩).res = some 11 :=
  (msgRead_msgWrite .big .little markedMsg (by decide) [0x20, 0x5e] []
    (by simp [MSG_MARK])
    (([0x20, 0x5e] ++ (msgWrite logWrite .big []
      (markedMsg.setcsum (msgCsum .big markedMsg))).1).map fun c => [c]) (fun _ => 0)
    ⟨0, 0, fun _ => 0⟩ (by rw [List.append_nil, ← List.flatMap_def, List.flatMap_singleton'])).1

end Plo.Phfs
