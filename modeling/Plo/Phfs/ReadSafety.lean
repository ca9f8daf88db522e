import Mathlib.Data.List.DropRight
import Mathlib.Data.List.GetD
import Plo.Phfs.Frame

/-!
What `msg_read` does with bytes from anywhere. The declared length comes in the
middle of a frame and is not looked at before the data is stored; the bounds hold
because the length of what was taken is tested before each byte, and a frame is
accepted only where this length meets the declared one.
-/
namespace Plo.Phfs

section Slots

/-- A place of the header buffer or of the data of the message. -/
inductive Slot
  | header (i : Nat)
  | data (i : Nat)
  deriving DecidableEq

def Slot.Inside : Slot → Prop
  | header i => i < MSG_HDRSZ
  | data i => i < MSG_MAXLEN

/-- Where the receiver puts the next byte. -/
def Receiver.slot (r : Receiver) : Slot :=
  if r.len < MSG_HDRSZ then .header r.len else .data (r.len - MSG_HDRSZ)

/-- The receiver writes to a buffer on this byte. -/
def Receiver.Stores (r : Receiver) (c : UInt8) : Prop :=
  r.state = .frame ∧ r.len ≠ MSG_HDRSZ + MSG_MAXLEN ∧ c ≠ MSG_MARK ∧
    (r.escfl = true ∨ c ≠ MSG_ESC)

instance (r : Receiver) (c : UInt8) : Decidable (r.Stores c) :=
  inferInstanceAs (Decidable (_ ∧ _ ∧ _ ∧ _))

/-- The bytes of a piece looked at, each with the place written for it. -/
def pieceTrace (e : Endian) : List UInt8 → Receiver → List (UInt8 × Option Slot)
  | [], _ => []
  | c :: cs, r =>
    (c, if r.Stores c then some r.slot else none) ::
      match r.step e c with
      | .ok r => pieceTrace e cs r
      | .error _ => []

def readTrace (e : Endian) : List ReadResult → Receiver → List (UInt8 × Option Slot)
  | [], _ => []
  | .error _ :: _, _ => []
  | .ok buff :: rest, r =>
    pieceTrace e buff r ++
      match buff.foldlM (Receiver.step e) r with
      | .ok r => readTrace e rest r
      | .error _ => []

/-- The bytes the device hands over before its first error. -/
def delivered : List ReadResult → List UInt8
  | .ok buff :: rest => buff ++ delivered rest
  | _ => []

end Slots

section Decoding

/-- What a byte stands for, after an escape or not. -/
def unescaped (escfl : Bool) (c : UInt8) : UInt8 :=
  if escfl then if c = MSG_ESCMARK then MSG_MARK else if c = MSG_ESCESC then MSG_ESC else c
  else c

def unescapeByte (d : List UInt8 × Bool) (c : UInt8) : List UInt8 × Bool :=
  if d.2 = false ∧ c = MSG_ESC then (d.1, true) else (d.1 ++ [unescaped d.2 c], false)

/-- The bytes the given ones stand for, and whether an escape is left open. -/
def unescape (bytes : List UInt8) : List UInt8 × Bool := bytes.foldl unescapeByte ([], false)

/-- What follows the last mark; all of it when there is none. -/
def sinceMark (input : List UInt8) : List UInt8 := input.rtakeWhile (· ≠ MSG_MARK)

/-- The bytes of the frame the input ends with. -/
def frameOf (input : List UInt8) : List UInt8 := (unescape (sinceMark input)).1

/-- The message a frame holds. -/
def msgOf (frame : List UInt8) : Msg where
  csum := leWord fun k => frame.getD k 0
  type := leWord fun k => frame.getD (4 + k) 0
  data k := frame.getD (MSG_HDRSZ + k) 0

/-- A frame taken from the input of a call entered in `state`. -/
structure Accepted (state : ReadState) (input : List UInt8) (msg : Msg) (res : Int) : Prop where
  marked : state = .frame ∨ MSG_MARK ∈ input
  getlen : msg.getlen ≤ MSG_MAXLEN
  received : (frameOf input).length = MSG_HDRSZ + msg.getlen
  res : res = MSG_HDRSZ + msg.getlen
  csum : msg.csum = (msgOf (frameOf input)).csum
  type : msg.type = (msgOf (frameOf input)).type
  data : ∀ i < msg.getlen, msg.data i = (msgOf (frameOf input)).data i
  checked : msg.getcsum =
    (frameSum msg.getlen msg.type msg.data + msg.getseq.setWidth 16).setWidth 32

theorem frameByte_msgOf (frame : List UInt8) (k : Nat) :
    (msgOf frame).frameByte k = frame.getD k 0 := by
  simp only [Msg.frameByte, msgOf, MSG_HDRSZ]
  split
  · next h => exact wordByte_leWord _ k h
  · split
    · next h4 h8 =>
      rw [wordByte_leWord _ (k - 4) (by omega), Nat.add_sub_of_le (by omega)]
    · next h8 => rw [Nat.add_sub_of_le (by omega)]

theorem Received.congr {m m' : Msg} {n : Nat} {r : Receiver} (h : Received m n r)
    (hsame : ∀ i < n, m.frameByte i = m'.frameByte i) : Received m' n r := by
  obtain ⟨hstate, hesc, hlen, hheaders, hcsum, htype, hdata⟩ := h
  have hword {w w' : BitVec 32} (hw : ∀ k < 4, wordByte w k = wordByte w' k) : w = w' :=
    (leWord_wordByte fun _ _ => rfl).symm.trans (leWord_wordByte hw)
  refine ⟨hstate, hesc, hlen, fun i hi hin => (hheaders i hi hin).trans (hsame i hin), ?_, ?_, ?_⟩
  · intro h8
    refine (hcsum h8).trans (hword ?_)
    intro k hk
    have hbyte := hsame k (by omega)
    simpa only [Msg.frameByte, if_pos hk] using hbyte
  · intro h8
    refine (htype h8).trans (hword ?_)
    intro k hk
    have hbyte := hsame (4 + k) (by omega)
    have hk4 : ¬ 4 + k < 4 := by omega
    have hk8 : 4 + k < 8 := by omega
    simpa only [Msg.frameByte, MSG_HDRSZ, if_neg hk4, if_pos hk8, Nat.add_sub_cancel_left]
      using hbyte
  · intro i hi
    have hbyte := hsame (8 + i) hi
    have h4 : ¬ 8 + i < 4 := by omega
    have h8 : ¬ 8 + i < 8 := by omega
    simp only [Msg.frameByte, MSG_HDRSZ, if_neg h4, if_neg h8, Nat.add_sub_cancel_left] at hbyte
    exact (hdata i hi).trans hbyte

/-- One byte more of a frame that is not known beforehand. -/
theorem received_nil {r : Receiver} (hstate : r.state = .frame) (hesc : r.escfl = false)
    (hlen : r.len = 0) (m : Msg) : Received m 0 r :=
  ⟨hstate, hesc, hlen, fun i _ hi => absurd hi (Nat.not_lt_zero i), fun h => absurd h (by decide),
    fun h => absurd h (by decide), fun i hi => absurd hi (Nat.not_lt_zero _)⟩

theorem received_concat {frame : List UInt8} {r : Receiver}
    (h : Received (msgOf frame) frame.length r) (c : UInt8) :
    Received (msgOf (frame ++ [c])) (frame ++ [c]).length (r.put c) := by
  have hprefix : ∀ i < frame.length,
      (msgOf frame).frameByte i = (msgOf (frame ++ [c])).frameByte i := by
    intro i hi
    rw [frameByte_msgOf, frameByte_msgOf, List.getD_append _ _ _ _ hi]
  have hlast : (msgOf (frame ++ [c])).frameByte frame.length = c := by
    rw [frameByte_msgOf, List.getD_append_right _ _ _ _ le_rfl, Nat.sub_self]
    rfl
  have hput := received_put (h.congr hprefix)
  rw [hlast] at hput
  rwa [List.length_append, List.length_singleton]

theorem unescape_concat (bytes : List UInt8) (c : UInt8) :
    unescape (bytes ++ [c]) = unescapeByte (unescape bytes) c := by
  simp only [unescape, List.foldl_append, List.foldl_cons, List.foldl_nil]

theorem sinceMark_mark (input : List UInt8) : sinceMark (input ++ [MSG_MARK]) = [] :=
  List.rtakeWhile_concat_neg _ _ _ (by simp)

theorem sinceMark_concat (input : List UInt8) {c : UInt8} (hc : c ≠ MSG_MARK) :
    sinceMark (input ++ [c]) = sinceMark input ++ [c] :=
  List.rtakeWhile_concat_pos _ _ _ (by simpa using hc)

end Decoding

section Turns
variable {e : Endian} {r : Receiver} {c : UInt8}

/-- What a turn of the inner loop can come to. -/
inductive Turn (e : Endian) (r : Receiver) (c : UInt8) : Except (Receiver × Int) Receiver → Prop
  | idle (hstate : r.state = .desyn) (hmark : c ≠ MSG_MARK) : Turn e r c (.ok r)
  | mark (hstate : r.state = .desyn) (hmark : c = MSG_MARK) :
      Turn e r c (.ok { r with state := .frame })
  | long (hlen : r.len = MSG_HDRSZ + MSG_MAXLEN) :
      Turn e r c (.error ({ r with state := .desyn }, - ENXIO))
  | broken (hmark : c = MSG_MARK) : Turn e r c (.error (r, - ENXIO))
  | escape (hstate : r.state = .frame) (hesc : r.escfl = false) (hc : c = MSG_ESC) :
      Turn e r c (.ok { r with escfl := true })
  | stored (h : r.Stores c) :
      Turn e r c ({ r with escfl := false }.store e (unescaped r.escfl c))

theorem step_turn (e : Endian) (r : Receiver) (c : UInt8) : Turn e r c (r.step e c) := by
  obtain ⟨state, escfl, len, headers, msg⟩ := r
  cases state with
  | desyn =>
      simp only [Receiver.step]
      split
      · next h => exact .mark rfl h
      · next h => exact .idle rfl h
  | frame =>
      simp only [Receiver.step]
      split
      · next h => exact .long h
      · next hlen =>
        split
        · next h => exact .broken h
        · next hmark =>
          split
          · next h => exact .escape rfl h.1 h.2
          · next hesc =>
            cases escfl with
            | false => exact .stored ⟨rfl, hlen, hmark, Or.inr fun hc => hesc ⟨rfl, hc⟩⟩
            | true =>
                -- the two replacements cannot both happen
                have hsame : (if (if c = MSG_ESCMARK then MSG_MARK else c) = MSG_ESCESC then MSG_ESC
                    else if c = MSG_ESCMARK then MSG_MARK else c) = unescaped true c := by
                  have hne : MSG_MARK ≠ MSG_ESCESC := by decide
                  by_cases hc : c = MSG_ESCMARK
                  · simp only [unescaped, hc, if_true, if_neg hne]
                  · simp only [unescaped, hc, if_true, if_false]
                rw [if_pos rfl, hsame]
                exact .stored ⟨rfl, hlen, hmark, Or.inl rfl⟩

/-- Storing a byte goes on, or ends the call; with a message only where the
length taken is the declared one and the checksum is right. -/
theorem store_cases (e : Endian) (r : Receiver) (c : UInt8) :
    r.store e c = .ok (r.put c) ∨
      ∃ res, r.store e c = .error ({ r.put c with state := .desyn }, res) ∧
        (0 < res → (r.put c).len = (r.put c).msg.getlen + MSG_HDRSZ ∧ res = (r.put c).len ∧
          (r.put c).msg.getcsum = msgCsum e (r.put c).msg) := by
  simp only [Receiver.store]
  split
  · next hdone =>
    split
    · refine Or.inr ⟨_, rfl, ?_⟩
      intro hneg
      exact absurd hneg (by decide)
    · next hcsum => exact Or.inr ⟨_, rfl, fun _ => ⟨hdone.2, rfl, not_not.mp hcsum⟩⟩
  · exact Or.inl rfl

/-- Where a turn leaves the receiver, whether the call goes on or not. -/
def left : Except (Receiver × Int) Receiver → Receiver
  | .ok r => r
  | .error (r, _) => r

theorem left_store_data (r : Receiver) (c : UInt8) {i : Nat} (hi : r.slot ≠ .data i) :
    (left (r.store e c)).msg.data i = r.msg.data i := by
  have hput : (r.put c).msg.data i = r.msg.data i := by
    simp only [Receiver.put]
    by_cases hlen : r.len < MSG_HDRSZ
    · simp only [if_pos hlen]
      split <;> rfl
    · have hne : i ≠ r.len - MSG_HDRSZ := by
        rintro rfl
        exact hi (if_neg hlen)
      simp only [if_neg hlen]
      split
      · simp only [deserializeHeaders, if_neg hne]
      · simp only [if_neg hne]
  rcases store_cases e r c with hok | ⟨res, herr, -⟩
  · rw [hok]
    exact hput
  · rw [herr]
    exact hput

/-- A turn changes no data but in the place it writes. -/
theorem left_step_data {i : Nat}
    (hi : (if r.Stores c then some r.slot else none) ≠ some (.data i)) :
    (left (r.step e c)).msg.data i = r.msg.data i := by
  have hturn := step_turn e r c
  generalize r.step e c = turn at hturn
  cases hturn with
  | idle | mark | long | broken | escape => rfl
  | stored h =>
      rw [if_pos h, ne_eq, Option.some.injEq] at hi
      exact left_store_data _ _ hi

end Turns

section Calls
variable {e : Endian} {state : ReadState} {input : List UInt8} {r : Receiver} {c : UInt8}

/-- The receiver of a call entered in `state`, after it took the input. -/
inductive Follows (state : ReadState) (input : List UInt8) (r : Receiver) : Prop
  | idle (hstate : r.state = .desyn) (hmark : MSG_MARK ∉ input) (hesc : r.escfl = false)
      (hlen : r.len = 0)
  | inside (hmarked : state = .frame ∨ MSG_MARK ∈ input)
      (hesc : r.escfl = (unescape (sinceMark input)).2) (hlen : r.len ≤ MSG_HDRSZ + MSG_MAXLEN)
      (h : Received (msgOf (frameOf input)) (frameOf input).length { r with escfl := false })

theorem follows_start (state : ReadState) (headers : Nat → UInt8) (msg : Msg) :
    Follows state [] ⟨state, false, 0, headers, msg⟩ := by
  cases state with
  | desyn => exact .idle rfl (List.not_mem_nil) rfl rfl
  | frame =>
      exact .inside (Or.inl rfl) rfl (Nat.zero_le _) (received_nil rfl rfl rfl _)

theorem Follows.slot_inside (h : Follows state input r) (hstores : r.Stores c) :
    r.slot.Inside := by
  obtain ⟨hstate, hlen, -, -⟩ := hstores
  have hle : r.len ≤ MSG_HDRSZ + MSG_MAXLEN := by
    cases h with
    | idle _ _ _ hlen => rw [hlen]; exact Nat.zero_le _
    | inside _ _ hle _ => exact hle
  simp only [MSG_HDRSZ, MSG_MAXLEN] at hlen hle
  simp only [Receiver.slot, MSG_HDRSZ]
  split
  · next h8 => exact h8
  · next h8 => exact show r.len - 8 < 512 by omega

theorem clear_escfl (h : r.escfl = false) : { r with escfl := false } = r := by
  rw [← h]

/-- The frame of an input is accepted once its declared length is there. -/
theorem accepted_of_received {res : Int} (hmarked : state = .frame ∨ MSG_MARK ∈ input)
    (hr : Received (msgOf (frameOf input)) (frameOf input).length r)
    (hle : r.len ≤ MSG_HDRSZ + MSG_MAXLEN) (hdone : r.len = r.msg.getlen + MSG_HDRSZ)
    (hres : res = r.len) (hcsum : r.msg.getcsum = msgCsum e r.msg) :
    Accepted state input r.msg res := by
  have hget : r.msg.getlen ≤ MSG_MAXLEN := by
    simp only [MSG_HDRSZ, MSG_MAXLEN] at hdone hle ⊢
    omega
  have hcount : (frameOf input).length = MSG_HDRSZ + r.msg.getlen := by
    rw [← hr.len, hdone, Nat.add_comm]
  have hlong : 8 ≤ (frameOf input).length := hcount ▸ Nat.le_add_right _ _
  refine ⟨hmarked, hget, hcount, ?_, hr.csum hlong, hr.type hlong, ?_, ?_⟩
  · rw [hres, hdone, Nat.add_comm, Nat.cast_add]
  · intro i hi
    exact hr.data i (hcount ▸ Nat.add_lt_add_left hi 8)
  · rw [hcsum, msgCsum_eq]

/-- A byte is stored: the call goes on with one byte more of the frame, or it
accepts the frame. -/
theorem Follows.store (h : Follows state input r) (hstores : r.Stores c) :
    let turn := { r with escfl := false }.store e (unescaped r.escfl c)
    (∀ r', turn = .ok r' → Follows state (input ++ [c]) r') ∧
      ∀ r' res, turn = .error (r', res) → 0 < res → Accepted state (input ++ [c]) r'.msg res := by
  obtain ⟨hstate, hroom, hmark, hesc⟩ := hstores
  cases h with
  | idle hdesyn => exact absurd (hdesyn.symm.trans hstate) (by decide)
  | inside hmarked hfl hle hr =>
      have hmarked' : state = .frame ∨ MSG_MARK ∈ input ++ [c] :=
        hmarked.imp_right (List.mem_append_left _)
      have hbyte : unescape (sinceMark (input ++ [c])) =
          (frameOf input ++ [unescaped r.escfl c], false) := by
        have hplain : ¬ ((unescape (sinceMark input)).2 = false ∧ c = MSG_ESC) := by
          rintro ⟨hfalse, hc⟩
          rw [← hfl] at hfalse
          rcases hesc with htrue | hne
          · exact Bool.false_ne_true (hfalse.symm.trans htrue)
          · exact hne hc
        rw [sinceMark_concat _ hmark, unescape_concat, unescapeByte, if_neg hplain, ← hfl]
        rfl
      have hframe : frameOf (input ++ [c]) = frameOf input ++ [unescaped r.escfl c] :=
        congrArg Prod.fst hbyte
      have hput := received_concat hr (unescaped r.escfl c)
      rw [← hframe] at hput
      have hlen : ({ r with escfl := false }.put (unescaped r.escfl c)).len = r.len + 1 := by
        rw [hput.len, hframe, List.length_append, List.length_singleton, ← hr.len]
      have hbound : r.len + 1 ≤ MSG_HDRSZ + MSG_MAXLEN := Nat.lt_of_le_of_ne hle hroom
      generalize hnext : { r with escfl := false }.put (unescaped r.escfl c) = next at hput hlen
      rcases store_cases e { r with escfl := false } (unescaped r.escfl c) with
        hok | ⟨res, herr, hpos⟩
      · rw [hok, hnext]
        refine ⟨?_, fun r' res herr => nomatch herr⟩
        rintro r' ⟨⟩
        refine .inside hmarked' ?_ (hlen ▸ hbound) ?_
        · rw [hput.escfl, hbyte]
        · rwa [clear_escfl hput.escfl]
      · rw [herr, hnext]
        refine ⟨fun r' hok => (nomatch hok), ?_⟩
        rintro r' _ ⟨⟩ hres
        rw [hnext] at hpos
        obtain ⟨hdone, hreslen, hcsum⟩ := hpos hres
        have haccepted : Accepted state (input ++ [c]) next.msg res :=
          accepted_of_received hmarked' hput (hlen ▸ hbound) hdone hreslen hcsum
        exact haccepted

/-- One turn of the inner loop. -/
theorem Follows.step (h : Follows state input r) :
    (∀ r', r.step e c = .ok r' → Follows state (input ++ [c]) r') ∧
      ∀ r' res, r.step e c = .error (r', res) → 0 < res →
        Accepted state (input ++ [c]) r'.msg res := by
  have hneg : ¬ (0 : Int) < - ENXIO := by decide
  have hturn := step_turn e r c
  generalize hstep : r.step e c = turn at hturn
  cases hturn with
  | idle hdesyn hmark =>
      refine ⟨?_, fun r' res herr => nomatch herr⟩
      rintro r' ⟨⟩
      cases h with
      | idle hstate hnone hesc hlen =>
          refine .idle hstate ?_ hesc hlen
          rw [List.mem_append, List.mem_singleton, not_or]
          exact ⟨hnone, Ne.symm hmark⟩
      | inside _ _ _ hr => exact absurd (hr.state.symm.trans hdesyn) (by decide)
  | mark hdesyn hmark =>
      subst hmark
      refine ⟨?_, fun r' res herr => nomatch herr⟩
      rintro r' ⟨⟩
      cases h with
      | idle hstate hnone hesc hlen =>
          refine .inside (Or.inr (by simp)) ?_ ?_ ?_
          · rw [sinceMark_mark]
            exact hesc
          · rw [hlen]
            exact Nat.zero_le _
          · rw [frameOf, sinceMark_mark]
            exact @received_nil { r with escfl := false, state := .frame } rfl rfl hlen _
      | inside _ _ _ hr => exact absurd (hr.state.symm.trans hdesyn) (by decide)
  | long =>
      refine ⟨fun r' hok => (nomatch hok), ?_⟩
      rintro r' _ ⟨⟩ hres
      exact absurd hres hneg
  | broken =>
      refine ⟨fun r' hok => (nomatch hok), ?_⟩
      rintro r' _ ⟨⟩ hres
      exact absurd hres hneg
  | escape hframe hesc hc =>
      subst hc
      refine ⟨?_, fun r' res herr => nomatch herr⟩
      rintro r' ⟨⟩
      cases h with
      | idle hdesyn => exact absurd (hdesyn.symm.trans hframe) (by decide)
      | inside hmarked hfl hle hr =>
          have hopen : unescape (sinceMark (input ++ [MSG_ESC])) = (frameOf input, true) := by
            rw [sinceMark_concat _ (by decide), unescape_concat, unescapeByte,
              if_pos ⟨hfl.symm.trans hesc, rfl⟩]
            rfl
          have hsame : frameOf (input ++ [MSG_ESC]) = frameOf input := by rw [frameOf, hopen]
          refine .inside (hmarked.imp_right (List.mem_append_left _)) ?_ hle ?_
          · rw [hopen]
          · rwa [hsame]
  | stored hstores => exact h.store hstores

theorem Follows.piece {piece : List UInt8} {r' : Receiver} (h : Follows state input r)
    (hfold : piece.foldlM (Receiver.step e) r = .ok r') : Follows state (input ++ piece) r' := by
  induction piece generalizing input r with
  | nil =>
      obtain rfl : r = r' := Except.ok.inj hfold
      rwa [List.append_nil]
  | cons c piece ih =>
      rw [List.foldlM_cons] at hfold
      cases hstep : r.step e c with
      | error ret =>
          rw [hstep] at hfold
          cases hfold
      | ok r₁ =>
          rw [hstep] at hfold
          rw [List.append_cons]
          exact ih (h.step.1 r₁ hstep) hfold

/-- The bytes looked at in a piece: all of them unless the call returns. -/
theorem pieceTrace_bytes (e : Endian) (piece : List UInt8) (r : Receiver) :
    (pieceTrace e piece r).map Prod.fst <+: piece ∧
      ∀ r', piece.foldlM (Receiver.step e) r = .ok r' →
        (pieceTrace e piece r).map Prod.fst = piece := by
  induction piece generalizing r with
  | nil => exact ⟨List.prefix_rfl, fun _ _ => rfl⟩
  | cons c piece ih =>
      rw [List.foldlM_cons]
      simp only [pieceTrace, List.map_cons]
      cases r.step e c with
      | error ret => exact ⟨List.prefix_iff_eq_take.mpr rfl, fun r' hok => nomatch hok⟩
      | ok r₁ =>
          refine ⟨(List.prefix_cons_inj c).mpr (ih r₁).1, ?_⟩
          intro r' hfold
          rw [(ih r₁).2 r' hfold]

theorem pieceTrace_inside {piece : List UInt8} (h : Follows state input r) :
    ∀ write ∈ pieceTrace e piece r, ∀ slot ∈ write.2, slot.Inside := by
  induction piece generalizing input r with
  | nil => exact fun write hwrite => absurd hwrite List.not_mem_nil
  | cons c piece ih =>
      simp only [pieceTrace, List.forall_mem_cons]
      constructor
      · intro slot hslot
        split at hslot
        · next hstores =>
          obtain rfl : r.slot = slot := Option.some.inj hslot
          exact h.slot_inside hstores
        · exact absurd hslot (Option.not_mem_none slot)
      · cases hstep : r.step e c with
        | error ret => exact fun write hwrite => absurd hwrite List.not_mem_nil
        | ok r₁ => exact ih (h.step.1 r₁ hstep)

theorem pieceTrace_data (piece : List UInt8) {i : Nat}
    (hi : ∀ write ∈ pieceTrace e piece r, write.2 ≠ some (.data i)) :
    (left (piece.foldlM (Receiver.step e) r)).msg.data i = r.msg.data i := by
  induction piece generalizing r with
  | nil => rfl
  | cons c piece ih =>
      simp only [pieceTrace, List.forall_mem_cons] at hi
      have hstep := left_step_data (e := e) hi.1
      rw [List.foldlM_cons]
      have htail := hi.2
      cases hturn : r.step e c with
      | error ret =>
          rw [hturn] at hstep
          exact hstep
      | ok r₁ =>
          rw [hturn] at hstep htail
          exact (ih htail).trans hstep

theorem Follows.accepted {piece : List UInt8} {r' : Receiver} {res : Int}
    (h : Follows state input r)
    (hfold : piece.foldlM (Receiver.step e) r = .error (r', res)) (hres : 0 < res) :
    Accepted state (input ++ (pieceTrace e piece r).map Prod.fst) r'.msg res := by
  induction piece generalizing input r with
  | nil => cases hfold
  | cons c piece ih =>
      rw [List.foldlM_cons] at hfold
      simp only [pieceTrace, List.map_cons]
      cases hstep : r.step e c with
      | error ret =>
          rw [hstep] at hfold
          obtain rfl : ret = (r', res) := Except.error.inj hfold
          exact h.step.2 r' res hstep hres
      | ok r₁ =>
          rw [hstep] at hfold
          rw [List.append_cons]
          exact ih (h.step.1 r₁ hstep) hfold

end Calls

section Reads
variable {e : Endian} {state : ReadState} {input : List UInt8} {r : Receiver}

theorem readTrace_bytes (e : Endian) (reads : List ReadResult) (r : Receiver) :
    (readTrace e reads r).map Prod.fst <+: delivered reads := by
  induction reads generalizing r with
  | nil => exact List.prefix_rfl
  | cons read reads ih =>
      cases read with
      | error res => exact List.prefix_rfl
      | ok piece =>
          obtain ⟨hbytes, hall⟩ := pieceTrace_bytes e piece r
          simp only [readTrace, delivered, List.map_append]
          cases hfold : piece.foldlM (Receiver.step e) r with
          | error ret =>
              rw [List.map_nil, List.append_nil]
              exact hbytes.trans (List.prefix_append piece _)
          | ok r₁ =>
              rw [hall r₁ hfold]
              exact (List.prefix_append_right_inj piece).mpr (ih r₁)

theorem readTrace_inside (reads : List ReadResult) (h : Follows state input r) :
    ∀ write ∈ readTrace e reads r, ∀ slot ∈ write.2, slot.Inside := by
  induction reads generalizing input r with
  | nil => exact fun write hwrite => absurd hwrite List.not_mem_nil
  | cons read reads ih =>
      cases read with
      | error res => exact fun write hwrite => absurd hwrite List.not_mem_nil
      | ok piece =>
          simp only [readTrace, List.forall_mem_append]
          refine ⟨pieceTrace_inside h, ?_⟩
          cases hfold : piece.foldlM (Receiver.step e) r with
          | error ret => exact fun write hwrite => absurd hwrite List.not_mem_nil
          | ok r₁ => exact ih (h.piece hfold)

theorem readTrace_data (reads : List ReadResult) {i : Nat}
    (hi : ∀ write ∈ readTrace e reads r, write.2 ≠ some (.data i)) :
    (readLoop e reads r).msg.data i = r.msg.data i := by
  induction reads generalizing r with
  | nil => rfl
  | cons read reads ih =>
      cases read with
      | error res => rfl
      | ok piece =>
          simp only [readTrace, List.forall_mem_append] at hi
          obtain ⟨hpiece, hrest⟩ := hi
          have hdata := pieceTrace_data piece hpiece
          simp only [readLoop]
          cases hfold : piece.foldlM (Receiver.step e) r with
          | error ret =>
              rw [hfold] at hdata
              exact hdata
          | ok r₁ =>
              rw [hfold] at hdata hrest
              exact (ih hrest).trans hdata

theorem Follows.reads (reads : List ReadResult) (h : Follows state input r) {res : Int}
    (hout : (readLoop e reads r).res = some res) (hres : 0 < res) :
    Accepted state (input ++ (readTrace e reads r).map Prod.fst) (readLoop e reads r).msg res := by
  induction reads generalizing input r with
  | nil => cases hout
  | cons read reads ih =>
      cases read with
      | error err =>
          obtain rfl : - ENXIO = res := Option.some.inj hout
          exact absurd hres (by decide)
      | ok piece =>
          simp only [readLoop, readTrace, List.map_append] at hout ⊢
          cases hfold : piece.foldlM (Receiver.step e) r with
          | error ret =>
              rw [hfold] at hout
              obtain rfl : ret.2 = res := Option.some.inj hout
              rw [List.map_nil, List.append_nil]
              exact h.accepted hfold hres
          | ok r₁ =>
              rw [hfold] at hout
              rw [(pieceTrace_bytes e piece r).2 r₁ hfold, ← List.append_assoc]
              exact ih (h.piece hfold) hout

end Reads

end Plo.Phfs
