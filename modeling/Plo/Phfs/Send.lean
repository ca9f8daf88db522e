import Mathlib.Data.Nat.Find
import Plo.Phfs.Frame

/-!
The attempts of `msg_send`. Every attempt serializes the header of the message in
place, over the words it was given. A little-endian host finds the same words
there the next time; a big-endian host finds them reversed, takes the length from
the wrong end and puts the reversed words on the wire.
-/
namespace Plo.Phfs

/-- What the device does in one attempt: the results of the writes in their order,
and what it hands over to the receiver. -/
structure Attempt where
  writes : Nat → Int
  reads : List ReadResult

/-- A device that notes the bytes it is given and counts the writes. -/
def noteWrite (writes : Nat → Int) (d : List UInt8 × Nat) (buff : List UInt8) :
    (List UInt8 × Nat) × Int :=
  ((d.1 ++ buff, d.2 + 1), writes d.2)

/-- The bytes of one attempt and the result of its `msg_write`. -/
structure Try where
  bytes : List UInt8
  res : Int

/-- What a call of `msg_send` came to. It has no result while it waits for the device. -/
structure Sent where
  tries : List Try
  rmsg : Msg
  res : Option Int

def Sent.after (t : Try) (s : Sent) : Sent := { s with tries := t :: s.tries }

/-- The loop of `msg_send` with `left` attempts to go, the next of them being `retr`. -/
def sendLoop (e : Endian) (attempts : Nat → Attempt) (stack : Nat → Nat → UInt8) :
    (left retr : Nat) → ReadState → Msg → Msg → Sent
  | 0, _, _, _, rmsg => ⟨[], rmsg, some (- ENXIO)⟩
  | left + 1, retr, state, smsg, rmsg =>
    match msgWrite (noteWrite (attempts retr).writes) e ([], 0) smsg with
    | ((bytes, _), smsg, res) =>
      if res < 0 then
        (sendLoop e attempts stack left (retr + 1) state smsg rmsg).after ⟨bytes, res⟩
      else
        let out := msgRead e (stack retr) (attempts retr).reads state rmsg
        match out.res with
        | none => ⟨[⟨bytes, res⟩], out.msg, none⟩
        | some r =>
          if r > 0 then ⟨[⟨bytes, res⟩], out.msg, some EOK⟩
          else (sendLoop e attempts stack left (retr + 1) out.state smsg out.msg).after ⟨bytes, res⟩

def msgSend (e : Endian) (attempts : Nat → Attempt) (stack : Nat → Nat → UInt8)
    (smsg rmsg : Msg) : Sent :=
  sendLoop e attempts stack MSGRECV_MAXRETR 0 .desyn (smsg.setcsum (msgCsum e smsg)) rmsg

section Written
variable {writes : Nat → Int}

/-- The bytes given to the device until a write fails; `n` writes were made before. -/
def sentFrom (writes : Nat → Int) : Nat → List UInt8 → List UInt8
  | _, [] => []
  | n, c :: cs => escape c ++ if writes n < 0 then [] else sentFrom writes (n + 1) cs

theorem writeBytes_noteWrite (writes : Nat → Int) (d : List UInt8) (n : Nat) (cs : List UInt8) :
    (writeBytes (noteWrite writes) (d, n) cs).1.1 = d ++ sentFrom writes n cs ∧
      ((writeBytes (noteWrite writes) (d, n) cs).2 < 0 ↔
        ∃ j < cs.length, writes (n + j) < 0) := by
  induction cs generalizing d n with
  | nil => simp [writeBytes, sentFrom, EOK]
  | cons c cs ih =>
      have hturn : writeBytes (noteWrite writes) (d, n) (c :: cs) =
          if writes n < 0 then ((d ++ escape c, n + 1), writes n)
          else writeBytes (noteWrite writes) (d ++ escape c, n + 1) cs := rfl
      rw [hturn, sentFrom]
      by_cases hfail : writes n < 0
      · rw [if_pos hfail, if_pos hfail, List.append_nil]
        exact ⟨rfl, iff_of_true hfail ⟨0, by simp, hfail⟩⟩
      · rw [if_neg hfail, if_neg hfail]
        obtain ⟨hbytes, hres⟩ := ih (d ++ escape c) (n + 1)
        refine ⟨by rw [hbytes, List.append_assoc], hres.trans ?_⟩
        constructor
        · intro hex
          obtain ⟨j, hj, h⟩ := hex
          exact ⟨j + 1, by simpa using hj, by rwa [Nat.add_comm j, ← Nat.add_assoc]⟩
        · intro hex
          obtain ⟨j, hj, h⟩ := hex
          cases j with
          | zero => exact absurd h hfail
          | succ j => exact ⟨j, by simpa using hj, by rwa [Nat.add_assoc, Nat.add_comm 1]⟩

/-- The code of a byte is not the beginning of the code of another one. -/
theorem escape_prefix {c c' : UInt8} {xs xs' : List UInt8}
    (h : escape c' ++ xs' <+: escape c ++ xs) : c' = c ∧ xs' <+: xs := by
  have hmark : MSG_MARK ≠ MSG_ESC ∧ MSG_ESCMARK ≠ MSG_ESCESC := by decide
  simp only [escape] at h
  by_cases h' : c' = MSG_MARK ∨ c' = MSG_ESC
  · by_cases hc : c = MSG_MARK ∨ c = MSG_ESC
    · rw [if_pos h', if_pos hc] at h
      simp only [List.cons_append, List.nil_append, List.cons_prefix_cons, true_and] at h
      refine ⟨?_, h.2⟩
      have hsame := h.1
      grind
    · rw [if_pos h', if_neg hc] at h
      simp only [List.cons_append, List.nil_append, List.cons_prefix_cons] at h
      exact absurd (Or.inr h.1.symm) hc
  · by_cases hc : c = MSG_MARK ∨ c = MSG_ESC
    · rw [if_neg h', if_pos hc] at h
      simp only [List.cons_append, List.nil_append, List.cons_prefix_cons] at h
      exact absurd (Or.inr h.1) h'
    · rw [if_neg h', if_neg hc] at h
      simpa using h

theorem sentFrom_prefix (n : Nat) (cs : List UInt8) :
    sentFrom writes n cs <+: cs.flatMap escape := by
  induction cs generalizing n with
  | nil => exact List.prefix_refl _
  | cons c cs ih =>
      rw [sentFrom, List.flatMap_cons, List.prefix_append_right_inj]
      split
      · exact List.nil_prefix
      · exact ih _

theorem sentFrom_all {n : Nat} {cs : List UInt8} (h : ∀ j < cs.length, ¬ writes (n + j) < 0) :
    sentFrom writes n cs = cs.flatMap escape := by
  induction cs generalizing n with
  | nil => rfl
  | cons c cs ih =>
      have hfirst : ¬ writes n < 0 := h 0 (by simp)
      rw [sentFrom, List.flatMap_cons, if_neg hfirst, ih]
      intro j hj
      rw [Nat.add_assoc, Nat.add_comm 1]
      exact h (j + 1) (by simpa using hj)

/-- As long as no write fails, what was given to the device shows byte `k`. -/
theorem sentFrom_agrees {n k : Nat} {cs cs' : List UInt8}
    (h : sentFrom writes n cs' <+: cs.flatMap escape) (hk : k < cs'.length)
    (hok : ∀ j < k, ¬ writes (n + j) < 0) : cs'[k]? = cs[k]? := by
  induction cs' generalizing n k cs with
  | nil => cases hk
  | cons c' cs' ih =>
      cases cs with
      | nil =>
          have hnil := List.prefix_nil.mp h
          simp only [sentFrom, escape] at hnil
          split at hnil <;> simp at hnil
      | cons c cs =>
          rw [sentFrom, List.flatMap_cons] at h
          obtain ⟨rfl, hrest⟩ := escape_prefix h
          cases k with
          | zero => rfl
          | succ k =>
              have hfirst : ¬ writes n < 0 := hok 0 (Nat.succ_pos k)
              rw [if_neg hfirst] at hrest
              rw [List.getElem?_cons_succ, List.getElem?_cons_succ]
              refine ih hrest (by simpa using hk) ?_
              intro j hj
              rw [Nat.add_assoc, Nat.add_comm 1]
              exact hok (j + 1) (by omega)

theorem sentFrom_fails {n j : Nat} {cs cs' : List UInt8} (hj : writes (n + j) < 0)
    (hsame : ∀ i ≤ j, cs'[i]? = cs[i]?) : sentFrom writes n cs' <+: cs.flatMap escape := by
  induction cs' generalizing n j cs with
  | nil => exact List.nil_prefix
  | cons c' cs' ih =>
      have hfirst := hsame 0 (Nat.zero_le j)
      cases cs with
      | nil => cases hfirst
      | cons c cs =>
          obtain rfl : c' = c := by simpa using hfirst
          rw [sentFrom, List.flatMap_cons, List.prefix_append_right_inj]
          split
          · exact List.nil_prefix
          · next hok =>
            cases j with
            | zero => exact absurd hj hok
            | succ j =>
                refine ih (j := j) (by rwa [Nat.add_assoc, Nat.add_comm 1]) ?_
                intro i hi
                simpa using hsame (i + 1) (by omega)

end Written

section Attempts
variable {e : Endian} {writes : Nat → Int} {m : Msg}

/-- The bytes `msg_write` gives to the device before a write fails. -/
def Msg.sent (m : Msg) (writes : Nat → Int) : List UInt8 :=
  MSG_MARK :: if writes 0 < 0 then []
    else sentFrom writes 1 ((List.range (MSG_HDRSZ + m.getlen)).map m.frameByte)

/-- A write of a message fails. -/
def Msg.Fails (m : Msg) (writes : Nat → Int) : Prop := ∃ j < 9 + m.getlen, writes j < 0

theorem msgWrite_noteWrite (e : Endian) (writes : Nat → Int) (m : Msg) :
    (msgWrite (noteWrite writes) e ([], 0) m).1.1 = m.sent writes ∧
      (msgWrite (noteWrite writes) e ([], 0) m).2.1 = serializeHeaders e m ∧
      ((msgWrite (noteWrite writes) e ([], 0) m).2.2 < 0 ↔ m.Fails writes) := by
  have hbytes : (List.range (MSG_HDRSZ + m.getlen)).map ((serializeHeaders e m).byte e) =
      (List.range (MSG_HDRSZ + m.getlen)).map m.frameByte :=
    List.map_congr_left fun k _ => byte_serializeHeaders e m k
  obtain ⟨hsent, hres⟩ := writeBytes_noteWrite writes [MSG_MARK] 1
    ((List.range (MSG_HDRSZ + m.getlen)).map m.frameByte)
  rw [List.length_map, List.length_range] at hres
  simp only [msgWrite, noteWrite, List.nil_append, hbytes, Msg.sent]
  by_cases hmark : writes 0 < 0
  · simp only [if_pos hmark, true_and]
    exact iff_of_true hmark ⟨0, by omega, hmark⟩
  · simp only [if_neg hmark]
    have hfails : m.Fails writes ↔ ∃ j < MSG_HDRSZ + m.getlen, writes (1 + j) < 0 := by
      constructor
      · intro hex
        obtain ⟨j, hj, h⟩ := hex
        cases j with
        | zero => exact absurd h hmark
        | succ j => exact ⟨j, by simp only [MSG_HDRSZ]; omega, by rwa [Nat.add_comm]⟩
      · intro hex
        obtain ⟨j, hj, h⟩ := hex
        exact ⟨1 + j, by simp only [MSG_HDRSZ] at hj; omega, h⟩
    by_cases hfail : ∃ j < MSG_HDRSZ + m.getlen, writes (1 + j) < 0
    · have hneg := hres.mpr hfail
      rw [if_pos hneg]
      exact ⟨hsent, rfl, iff_of_true hneg (hfails.mpr hfail)⟩
    · have hneg := hres.not.mpr hfail
      rw [if_neg hneg]
      exact ⟨hsent, rfl, iff_of_false (by simp only [MSG_HDRSZ]; omega) (hfails.not.mpr hfail)⟩

/-- An attempt puts the frame of the message on the wire, or a part of it. -/
def Try.Keeps (t : Try) (wire : List UInt8) : Prop :=
  t.bytes <+: wire ∧ (0 ≤ t.res → t.bytes = wire)

theorem sent_starts_wire (m : Msg) (writes : Nat → Int) : m.sent writes <+: m.wire := by
  rw [Msg.sent, Msg.wire, List.prefix_cons_inj]
  split
  · exact List.nil_prefix
  · exact sentFrom_prefix _ _

theorem sent_all (h : ¬ m.Fails writes) : m.sent writes = m.wire := by
  have hmark : ¬ writes 0 < 0 := fun hneg => h ⟨0, by omega, hneg⟩
  rw [Msg.sent, Msg.wire, if_neg hmark, sentFrom_all]
  intro j hj hneg
  rw [List.length_map, List.length_range] at hj
  exact h ⟨1 + j, by simp only [MSG_HDRSZ] at hj; omega, hneg⟩

theorem eq_of_frameByte {m m' : Msg} (hdata : m'.data = m.data)
    (hheader : ∀ k < 8, m'.frameByte k = m.frameByte k) : m' = m := by
  have hcsum : m'.csum = m.csum := by
    have hbyte : ∀ k < 4, wordByte m'.csum k = wordByte m.csum k := by
      intro k hk
      simpa only [Msg.frameByte, if_pos hk] using hheader k (by omega)
    rw [← leWord_wordByte hbyte]
    exact (leWord_wordByte fun k _ => rfl).symm
  have htype : m'.type = m.type := by
    have hbyte : ∀ k < 4, wordByte m'.type k = wordByte m.type k := by
      intro k hk
      have h := hheader (4 + k) (by omega)
      simp only [Msg.frameByte, MSG_HDRSZ] at h
      rwa [if_neg (by omega), if_pos (by omega), if_neg (by omega), if_pos (by omega),
        Nat.add_sub_cancel_left] at h
    rw [← leWord_wordByte hbyte]
    exact (leWord_wordByte fun k _ => rfl).symm
  obtain ⟨csum, type, data⟩ := m
  obtain ⟨csum', type', data'⟩ := m'
  simp only at hcsum htype hdata
  rw [hcsum, htype, hdata]

theorem getElem?_frame (m : Msg) {k : Nat} (hk : k < 8) :
    ((List.range (MSG_HDRSZ + m.getlen)).map m.frameByte)[k]? = some (m.frameByte k) := by
  rw [List.getElem?_map, List.getElem?_range (by simp only [MSG_HDRSZ]; omega)]
  rfl

/-- Where two messages differ in their headers, the one is sent as the other only
until the first such byte. -/
theorem sent_starts_iff {m m' : Msg} (hdata : m'.data = m.data) :
    m'.sent writes <+: m.wire ∧ (¬ m'.Fails writes → m'.sent writes = m.wire) ↔
      ∀ k < 8, m'.frameByte k ≠ m.frameByte k → ∃ j ≤ k, writes j < 0 := by
  constructor
  · intro ⟨hstarts, _⟩ k hk hne
    by_contra hno
    have hok : ∀ j ≤ k, ¬ writes j < 0 := fun j hj hneg => hno ⟨j, hj, hneg⟩
    rw [Msg.sent, Msg.wire, if_neg (hok 0 (Nat.zero_le k)), List.prefix_cons_inj] at hstarts
    have hagree := sentFrom_agrees (k := k) hstarts
      (by rw [List.length_map, List.length_range]; simp only [MSG_HDRSZ]; omega)
      (fun j hj => hok (1 + j) (by omega))
    rw [getElem?_frame m hk, getElem?_frame m' hk, Option.some.injEq] at hagree
    exact hne hagree
  · intro hcond
    by_cases hdiff : ∃ k, k < 8 ∧ m'.frameByte k ≠ m.frameByte k
    · -- the first byte that differs is not reached
      obtain ⟨hk, hne⟩ := Nat.find_spec hdiff
      have hsame : ∀ i < Nat.find hdiff, m'.frameByte i = m.frameByte i := by
        intro i hi
        by_contra hi'
        exact Nat.find_min hdiff hi ⟨by omega, hi'⟩
      obtain ⟨j, hj, hneg⟩ := hcond _ hk hne
      refine ⟨?_, fun hok => absurd ⟨j, by omega, hneg⟩ hok⟩
      rw [Msg.sent, Msg.wire, List.prefix_cons_inj]
      cases j with
      | zero =>
          rw [if_pos hneg]
          exact List.nil_prefix
      | succ j =>
          split
          · exact List.nil_prefix
          · refine sentFrom_fails (j := j) (by rwa [Nat.add_comm]) ?_
            intro i hi
            rw [getElem?_frame m (by omega), getElem?_frame m' (by omega), hsame i (by omega)]
    · have hsame : m' = m := by
        refine eq_of_frameByte hdata ?_
        intro k hk
        by_contra hne
        exact hdiff ⟨k, hk, hne⟩
      rw [hsame]
      exact ⟨sent_starts_wire m writes, sent_all⟩

/-- The place of a header byte in its word read backwards. -/
def mirror (k : Nat) : Nat := if k < 4 then 3 - k else 11 - k

theorem frameByte_serializeHeaders (m : Msg) {k : Nat} (hk : k < 8) :
    (serializeHeaders .big m).frameByte k = m.frameByte (mirror k) := by
  by_cases h4 : k < 4
  · have hmirror : mirror k = 3 - k := if_pos h4
    simp only [Msg.frameByte, serializeHeaders, serialize32, hmirror]
    rw [if_pos h4, if_pos (by omega), wordByte_leWord _ _ h4]
  · have hmirror : mirror k = 11 - k := if_neg h4
    simp only [Msg.frameByte, serializeHeaders, serialize32, hmirror, MSG_HDRSZ]
    rw [if_neg h4, if_pos hk, if_neg (by omega), if_pos (by omega),
      wordByte_leWord _ _ (by omega), show 3 - (k - 4) = 11 - k - 4 by omega]

theorem serializeHeaders_twice (e : Endian) (m : Msg) :
    serializeHeaders e (serializeHeaders e m) = m := by
  have htwice (w : BitVec 32) : serialize32 e (serialize32 e w) = w := by
    cases e with
    | little => rfl
    | big =>
        have hbyte : ∀ k < 4,
            wordByte (leWord fun k => wordByte w (3 - k)) (3 - k) = wordByte w k := by
          intro k hk
          rw [wordByte_leWord _ _ (by omega), show 3 - (3 - k) = k by omega]
        simp only [serialize32]
        exact leWord_wordByte hbyte
  simp only [serializeHeaders, htwice]

end Attempts

section Send
variable {e : Endian} {attempts : Nat → Attempt} {stack : Nat → Nat → UInt8}

/-- Another attempt follows: a write failed, or no message came. -/
def Attempt.Failed (e : Endian) (a : Attempt) (headers : Nat → UInt8) (state : ReadState)
    (smsg rmsg : Msg) : Prop :=
  smsg.Fails a.writes ∨ ∃ res ≤ 0, (msgRead e headers a.reads state rmsg).res = some res

/-- One turn of the loop: the attempt, and what follows when it failed. -/
theorem sendLoop_tries (e : Endian) (attempts : Nat → Attempt) (stack : Nat → Nat → UInt8)
    (left retr : Nat) (state : ReadState) (smsg rmsg : Msg) :
    ∃ t rest, (sendLoop e attempts stack (left + 1) retr state smsg rmsg).tries = t :: rest ∧
      t.bytes = smsg.sent (attempts retr).writes ∧
      (t.res < 0 ↔ smsg.Fails (attempts retr).writes) ∧
      (((attempts retr).Failed e (stack retr) state smsg rmsg ∧ ∃ state' rmsg', rest =
          (sendLoop e attempts stack left (retr + 1) state' (serializeHeaders e smsg) rmsg').tries) ∨
        (¬ (attempts retr).Failed e (stack retr) state smsg rmsg ∧ rest = [])) := by
  obtain ⟨hbytes, hmsg, hres⟩ := msgWrite_noteWrite e (attempts retr).writes smsg
  simp only [sendLoop, Attempt.Failed]
  generalize msgWrite (noteWrite (attempts retr).writes) e ([], 0) smsg = w at hbytes hmsg hres
  obtain ⟨⟨bytes, n⟩, smsg', res⟩ := w
  simp only at hbytes hmsg hres ⊢
  subst hmsg
  by_cases hneg : res < 0
  · rw [if_pos hneg]
    exact ⟨_, _, rfl, hbytes, hres, Or.inl ⟨Or.inl (hres.mp hneg), state, rmsg, rfl⟩⟩
  · rw [if_neg hneg]
    have hok := hres.not.mp hneg
    cases hread : (msgRead e (stack retr) (attempts retr).reads state rmsg).res with
    | none =>
        refine ⟨_, _, rfl, hbytes, hres, Or.inr ⟨?_, rfl⟩⟩
        intro hfailed
        cases hfailed with
        | inl h => exact hok h
        | inr h =>
            obtain ⟨r, -, hr⟩ := h
            cases hr
    | some r =>
        dsimp only
        by_cases hpos : r > 0
        · rw [if_pos hpos]
          refine ⟨_, _, rfl, hbytes, hres, Or.inr ⟨?_, rfl⟩⟩
          intro hfailed
          cases hfailed with
          | inl h => exact hok h
          | inr h =>
              obtain ⟨r', hle, hr⟩ := h
              cases hr
              omega
        · rw [if_neg hpos]
          exact ⟨_, _, rfl, hbytes, hres, Or.inl ⟨Or.inr ⟨r, by omega, rfl⟩, _, _, rfl⟩⟩

theorem keeps_iff {t : Try} {m : Msg} {writes : Nat → Int} (wire : List UInt8)
    (hbytes : t.bytes = m.sent writes) (hres : t.res < 0 ↔ m.Fails writes) :
    t.Keeps wire ↔
      m.sent writes <+: wire ∧ (¬ m.Fails writes → m.sent writes = wire) := by
  rw [Try.Keeps, hbytes, ← hres, not_lt]

theorem keeps_own {t : Try} {m : Msg} {writes : Nat → Int}
    (hbytes : t.bytes = m.sent writes) (hres : t.res < 0 ↔ m.Fails writes) : t.Keeps m.wire :=
  (keeps_iff m.wire hbytes hres).mpr ⟨sent_starts_wire m writes, sent_all⟩

/-- Of up to three attempts only the second one is made with the words reversed. -/
theorem tries_keep_iff (e : Endian) (attempts : Nat → Attempt) (stack : Nat → Nat → UInt8)
    (m rmsg : Msg) :
    (∀ t ∈ (sendLoop e attempts stack MSGRECV_MAXRETR 0 .desyn m rmsg).tries, t.Keeps m.wire) ↔
      ((attempts 0).Failed e (stack 0) .desyn m rmsg →
        ∀ k < 8, (serializeHeaders e m).frameByte k ≠ m.frameByte k →
          ∃ j ≤ k, (attempts 1).writes j < 0) := by
  obtain ⟨t₁, rest₁, htries, hbytes₁, hres₁, hnext₁⟩ :=
    sendLoop_tries e attempts stack 2 0 .desyn m rmsg
  rw [htries, List.forall_mem_cons]
  cases hnext₁ with
  | inr hdone =>
      obtain ⟨hok, rfl⟩ := hdone
      exact iff_of_true ⟨keeps_own hbytes₁ hres₁, by simp⟩ fun hfailed => absurd hfailed hok
  | inl hagain =>
      obtain ⟨hfailed, state₁, rmsg₁, rfl⟩ := hagain
      obtain ⟨t₂, rest₂, htries₂, hbytes₂, hres₂, hnext₂⟩ :=
        sendLoop_tries e attempts stack 1 1 state₁ (serializeHeaders e m) rmsg₁
      have hrest : ∀ t ∈ rest₂, t.Keeps m.wire := by
        intro t ht
        cases hnext₂ with
        | inr hdone =>
            rw [hdone.2] at ht
            cases ht
        | inl hagain =>
            obtain ⟨-, state₂, rmsg₂, rfl⟩ := hagain
            rw [serializeHeaders_twice] at ht
            obtain ⟨t₃, rest₃, htries₃, hbytes₃, hres₃, hnext₃⟩ :=
              sendLoop_tries e attempts stack 0 2 state₂ m rmsg₂
            have hnone : rest₃ = [] := by
              cases hnext₃ with
              | inl h =>
                  obtain ⟨-, _, _, rfl⟩ := h
                  rfl
              | inr h => exact h.2
            rw [htries₃, hnone, List.mem_singleton] at ht
            rw [ht]
            exact keeps_own hbytes₃ hres₃
      have hsecond := (keeps_iff m.wire hbytes₂ hres₂).trans
        (sent_starts_iff (m := m) rfl)
      rw [htries₂, List.forall_mem_cons]
      constructor
      · intro h _
        exact hsecond.mp h.2.1
      · intro h
        exact ⟨keeps_own hbytes₁ hres₁, hsecond.mpr (h hfailed), hrest⟩

end Send

/-- A device that takes every write and never answers in time. -/
def silent : Attempt := ⟨fun _ => 1, [.error (- ENXIO)]⟩

end Plo.Phfs
