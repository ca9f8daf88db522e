import Plo.Phfs.Frame

/-!
Successive calls of `msg_read` on one stream. A call that returns in the middle
of a piece drops the rest of it, so what the calls return depends on where the
device cut the stream. It does not as long as nothing of use is dropped: then
the calls return what the receiver makes of the stream byte by byte.
-/
namespace Plo.Phfs

/-- What a caller of `msg_read` gets: an error, or the message received. -/
inductive Outcome
  | error (res : Int)
  | message (csum type : BitVec 32) (data : List UInt8)
  deriving DecidableEq

def outcome (msg : Msg) (res : Int) : Outcome :=
  if res > 0 then .message msg.csum msg.type ((List.range msg.getlen).map msg.data)
  else .error res

/-- The outcomes of at most `calls` calls of `msg_read` that share their state and
their message. `stack` is what each of them finds in its header buffer; a call that
still waits for the device is the last one. -/
def readCalls (e : Endian) (stack : Nat → Nat → UInt8) :
    Nat → List ReadResult → ReadState → Msg → List Outcome
  | 0, _, _, _ => []
  | calls + 1, reads, state, msg =>
    let out := msgRead e (stack calls) reads state msg
    match out.res with
    | none => []
    | some res => outcome out.msg res :: readCalls e stack calls out.rest out.state out.msg

/-- Calls until the stream is exhausted: each one that returns takes a piece. -/
def readAll (e : Endian) (stack : Nat → Nat → UInt8) (cut : List (List UInt8))
    (state : ReadState) (msg : Msg) : List Outcome :=
  readCalls e stack cut.length (cut.map .ok) state msg

section Stream

/-- A receiver at the beginning of a call. -/
def Receiver.start (state : ReadState) : Receiver :=
  ⟨state, false, 0, fun _ => 0, ⟨0, 0, fun _ => 0⟩⟩

/-- The outcomes of the calls when no byte is dropped. -/
def scan (e : Endian) : List UInt8 → Receiver → List Outcome
  | [], _ => []
  | c :: cs, r =>
    match r.step e c with
    | .ok r => scan e cs r
    | .error (r, res) => outcome r.msg res :: scan e cs (Receiver.start r.state)

/-- The receiver after a piece; or, when a call returns in it, the state it
leaves and the bytes it drops. -/
def dropped (e : Endian) : List UInt8 → Receiver → Except (ReadState × List UInt8) Receiver
  | [], r => .ok r
  | c :: cs, r =>
    match r.step e c with
    | .ok r => dropped e cs r
    | .error (r, _) => .error (r.state, cs)

/-- Bytes that no call would have used. -/
def Unused (state : ReadState) (bytes : List UInt8) : Prop :=
  bytes = [] ∨ state = .desyn ∧ MSG_MARK ∉ bytes

instance (state : ReadState) (bytes : List UInt8) : Decidable (Unused state bytes) :=
  inferInstanceAs (Decidable (_ ∨ _))

/-- No call returns before a byte of its piece that the next one would use. -/
def SafeCut (e : Endian) : List (List UInt8) → Receiver → Prop
  | [], _ => True
  | piece :: cut, r =>
    match dropped e piece r with
    | .ok r => SafeCut e cut r
    | .error (state, bytes) => Unused state bytes ∧ SafeCut e cut (Receiver.start state)

instance decidableSafeCut (e : Endian) :
    (cut : List (List UInt8)) → (r : Receiver) → Decidable (SafeCut e cut r)
  | [], _ => .isTrue trivial
  | piece :: cut, r =>
    match h : dropped e piece r with
    | .ok r =>
      @decidable_of_iff _ (SafeCut e cut r) (by simp only [SafeCut, h]) (decidableSafeCut e cut r)
    | .error (state, bytes) =>
      @decidable_of_iff _ (Unused state bytes ∧ SafeCut e cut (Receiver.start state))
        (by simp only [SafeCut, h])
        (@instDecidableAnd _ _ _ (decidableSafeCut e cut (Receiver.start state)))

end Stream

section Similar
variable {e : Endian} {n : Nat} {r r' : Receiver}

/-- Receivers that took the same `n` bytes of a frame. What their buffers held
before is of no account. -/
structure Similar (n : Nat) (r r' : Receiver) : Prop where
  state : r.state = r'.state
  escfl : r.escfl = r'.escfl
  len : r.len = n
  len' : r'.len = n
  headers : ∀ i < 8, i < n → r.headers i = r'.headers i
  csum : 8 ≤ n → r.msg.csum = r'.msg.csum
  type : 8 ≤ n → r.msg.type = r'.msg.type
  data : ∀ i, 8 + i < n → r.msg.data i = r'.msg.data i

theorem similar_start (state : ReadState) (headers : Nat → UInt8) (msg : Msg) :
    Similar 0 ⟨state, false, 0, headers, msg⟩ (Receiver.start state) :=
  ⟨rfl, rfl, rfl, rfl, by omega, by omega, by omega, by omega⟩

theorem Similar.put (h : Similar n r r') (c : UInt8) :
    Similar (n + 1) (r.put c) (r'.put c) := by
  obtain ⟨hstate, hesc, rfl, hlen, hheaders, hcsum, htype, hdata⟩ := h
  have hnew (i : Nat) (hi : i < 8) (hin : i < r.len + 1) :
      (if i = r.len then c else r.headers i) = if i = r.len then c else r'.headers i := by
    split
    · rfl
    · exact hheaders i hi (by omega)
  rcases Nat.lt_trichotomy (r.len + 1) 8 with hlt | heq | hgt
  · have hhdr : r.len < 8 := by omega
    simp only [Receiver.put, MSG_HDRSZ, hlen, if_pos hhdr, if_neg hlt.ne]
    exact ⟨hstate, hesc, rfl, rfl, hnew, by omega, by omega, by omega⟩
  · have hhdr : r.len < 8 := by omega
    have hcsum' : leWord (fun i => if i = r.len then c else r.headers i) =
        leWord (fun i => if i = r.len then c else r'.headers i) := by
      refine leWord_congr ?_
      intro k hk
      exact hnew k (by omega) (by omega)
    have htype' : leWord (fun k => if 4 + k = r.len then c else r.headers (4 + k)) =
        leWord (fun k => if 4 + k = r.len then c else r'.headers (4 + k)) := by
      refine leWord_congr ?_
      intro k hk
      exact hnew (4 + k) (by omega) (by omega)
    simp only [Receiver.put, MSG_HDRSZ, hlen, if_pos hhdr, if_pos heq, deserializeHeaders,
      deserialize32]
    exact ⟨hstate, hesc, rfl, rfl, hnew, fun _ => hcsum', fun _ => htype', by omega⟩
  · have hhdr : ¬ r.len < 8 := by omega
    simp only [Receiver.put, MSG_HDRSZ, hlen, if_neg hhdr, if_neg hgt.ne']
    refine ⟨hstate, hesc, rfl, rfl, fun i hi _ => hheaders i hi (by omega),
      fun _ => hcsum (by omega), fun _ => htype (by omega), ?_⟩
    intro i hi
    dsimp only
    split
    · rfl
    · exact hdata i (by omega)

/-- Two results of one turn: both go on with similar receivers, or both return
the same. -/
inductive SameStep : Except (Receiver × Int) Receiver → Except (Receiver × Int) Receiver → Prop
  | ok {n : Nat} {r r' : Receiver} (h : Similar n r r') : SameStep (.ok r) (.ok r')
  | error {r r' : Receiver} {res : Int} (hstate : r.state = r'.state)
      (hout : outcome r.msg res = outcome r'.msg res) :
      SameStep (.error (r, res)) (.error (r', res))

theorem outcome_error (msg msg' : Msg) : outcome msg (- ENXIO) = outcome msg' (- ENXIO) := by
  have hneg : ¬ (- ENXIO : Int) > 0 := by decide
  simp only [outcome, if_neg hneg]

theorem Similar.msg (h : Similar n r r') (hlen : 8 ≤ n) (hall : n = r.msg.getlen + 8) :
    r.msg.getlen = r'.msg.getlen ∧ msgCsum e r.msg = msgCsum e r'.msg ∧
      r.msg.getcsum = r'.msg.getcsum ∧ ∀ res, outcome r.msg res = outcome r'.msg res := by
  have hgetlen : r.msg.getlen = r'.msg.getlen := by simp only [Msg.getlen, h.type hlen]
  have hdata : ∀ i < r.msg.getlen, r.msg.data i = r'.msg.data i := by
    intro i hi
    exact h.data i (by omega)
  refine ⟨hgetlen, ?_, by simp only [Msg.getcsum, h.csum hlen], ?_⟩
  · rw [msgCsum_eq, msgCsum_eq, ← hgetlen, ← h.type hlen, frameSum_congr hdata]
    simp only [Msg.getseq, h.csum hlen]
  · intro res
    have hlist : (List.range r.msg.getlen).map r.msg.data =
        (List.range r'.msg.getlen).map r'.msg.data := by
      rw [← hgetlen]
      exact List.map_congr_left fun i hi => hdata i (List.mem_range.mp hi)
    simp only [outcome, h.csum hlen, h.type hlen, hlist]

theorem Similar.store (h : Similar n r r') (c : UInt8) :
    SameStep (r.store e c) (r'.store e c) := by
  have hput := h.put c
  have hdone : (r.put c).len ≥ 8 ∧ (r.put c).len = (r.put c).msg.getlen + 8 ↔
      (r'.put c).len ≥ 8 ∧ (r'.put c).len = (r'.put c).msg.getlen + 8 := by
    rw [hput.len, hput.len']
    refine and_congr_right ?_
    intro hlen
    simp only [Msg.getlen, hput.type hlen]
  simp only [Receiver.store, MSG_HDRSZ]
  by_cases hall : (r.put c).len ≥ 8 ∧ (r.put c).len = (r.put c).msg.getlen + 8
  · rw [if_pos hall, if_pos (hdone.mp hall)]
    rw [hput.len] at hall
    obtain ⟨-, hsum, hcsum, hout⟩ := hput.msg (e := e) hall.1 hall.2
    rw [hsum, hcsum]
    split
    · exact .error rfl (outcome_error _ _)
    · rw [hput.len, hput.len']
      exact .error rfl (hout _)
  · rw [if_neg hall, if_neg (hdone.not.mp hall)]
    exact .ok hput

theorem Similar.step (h : Similar n r r') (c : UInt8) :
    SameStep (r.step e c) (r'.step e c) := by
  obtain ⟨state, escfl, len, headers, msg⟩ := r
  obtain ⟨state', escfl', len', headers', msg'⟩ := r'
  obtain ⟨hstate, hesc, hlen, hlen', hheaders, hcsum, htype, hdata⟩ := h
  dsimp only at hstate hesc hlen hlen'
  subst hstate hesc hlen hlen'
  have hsame (st : ReadState) (fl : Bool) :
      Similar len' ⟨st, fl, len', headers, msg⟩ ⟨st, fl, len', headers', msg'⟩ :=
    ⟨rfl, rfl, rfl, rfl, hheaders, hcsum, htype, hdata⟩
  cases state with
  | desyn =>
      simp only [Receiver.step]
      split
      · exact .ok (hsame _ _)
      · exact .ok (hsame _ _)
  | frame =>
      simp only [Receiver.step]
      split
      · exact .error rfl (outcome_error _ _)
      · split
        · exact .error rfl (outcome_error _ _)
        · split
          · exact .ok (hsame _ _)
          · split
            · exact (hsame _ _).store _
            · exact (hsame _ _).store c

end Similar

section Calls
variable {e : Endian} {n : Nat} {r r' : Receiver}

/-- One piece: either the call goes on, or it returns and drops what is left. -/
theorem piece_cases (h : Similar n r r') (piece rest : List UInt8) :
    (∃ n r₁ r₁', piece.foldlM (Receiver.step e) r = .ok r₁ ∧ dropped e piece r' = .ok r₁' ∧
      Similar n r₁ r₁' ∧ scan e (piece ++ rest) r' = scan e rest r₁') ∨
    (∃ r₁ res bytes, piece.foldlM (Receiver.step e) r = .error (r₁, res) ∧
      dropped e piece r' = .error (r₁.state, bytes) ∧
      scan e (piece ++ rest) r' =
        outcome r₁.msg res :: scan e (bytes ++ rest) (Receiver.start r₁.state)) := by
  induction piece generalizing n r r' with
  | nil => exact Or.inl ⟨n, r, r', rfl, rfl, h, rfl⟩
  | cons c piece ih =>
      have hstep := h.step (e := e) c
      simp only [List.foldlM_cons, List.cons_append, dropped, scan]
      generalize r.step e c = turn, r'.step e c = turn' at hstep
      cases hstep with
      | ok h₁ => exact ih h₁
      | error hstate hout =>
          refine Or.inr ⟨_, _, piece, rfl, ?_, ?_⟩
          · rw [hstate]
          · rw [hstate, hout]

theorem scan_unused {state : ReadState} {bytes : List UInt8} (h : Unused state bytes)
    (rest : List UInt8) :
    scan e (bytes ++ rest) (Receiver.start state) = scan e rest (Receiver.start state) := by
  cases h with
  | inl hnil => rw [hnil, List.nil_append]
  | inr hnoise =>
      obtain ⟨rfl, hmark⟩ := hnoise
      induction bytes with
      | nil => rfl
      | cons c bytes ih =>
          rw [List.mem_cons, not_or] at hmark
          have hstep : (Receiver.start .desyn).step e c = .ok (Receiver.start .desyn) := by
            simp only [Receiver.step, Receiver.start, if_neg (Ne.symm hmark.1)]
          simp only [List.cons_append, scan, hstep]
          exact ih hmark.2

/-- The calls after the one that came to `out`, which is the first of them. -/
def outcomes (e : Endian) (stack : Nat → Nat → UInt8) (calls : Nat) (out : ReadOutcome) :
    List Outcome :=
  match out.res with
  | none => []
  | some res => outcome out.msg res :: readCalls e stack calls out.rest out.state out.msg

/-- The induction is on the pieces left; `r` is where the call under way stands. -/
theorem outcomes_readLoop (stack : Nat → Nat → UInt8) (cut : List (List UInt8)) {calls : Nat}
    (hcalls : cut.length ≤ calls + 1) (h : Similar n r r') (hsafe : SafeCut e cut r') :
    outcomes e stack calls (readLoop e (cut.map .ok) r) = scan e cut.flatten r' := by
  induction cut generalizing n r r' calls with
  | nil => rfl
  | cons piece cut ih =>
      simp only [List.map_cons, readLoop, List.flatten_cons, SafeCut] at hsafe ⊢
      rw [List.length_cons] at hcalls
      cases piece_cases (e := e) h piece cut.flatten with
      | inl hgoes =>
          obtain ⟨n₁, r₁, r₁', hfold, hdrop, h₁, hscan⟩ := hgoes
          rw [hdrop] at hsafe
          rw [hfold, hscan]
          exact ih (by omega) h₁ hsafe
      | inr hreturns =>
          obtain ⟨r₁, res, bytes, hfold, hdrop, hscan⟩ := hreturns
          rw [hdrop] at hsafe
          rw [hfold, hscan, scan_unused hsafe.1]
          simp only [outcomes, List.cons.injEq, true_and]
          cases calls with
          | zero =>
              obtain rfl : cut = [] := List.eq_nil_of_length_eq_zero (by omega)
              rfl
          | succ calls => exact ih (by omega) (similar_start _ _ _) hsafe.2

theorem readAll_eq_scan (stack : Nat → Nat → UInt8) (cut : List (List UInt8)) (state : ReadState)
    (msg : Msg) (hsafe : SafeCut e cut (Receiver.start state)) :
    readAll e stack cut state msg = scan e cut.flatten (Receiver.start state) := by
  cases cut with
  | nil => rfl
  | cons piece cut => exact outcomes_readLoop stack _ (by simp) (similar_start _ _ _) hsafe

end Calls

/-- Two ways of cutting a stream give the same outcomes, call by call, when no
call drops a byte that the next one would use. -/
theorem safe_cuts_return_the_same (e : Endian) (state : ReadState)
    (cut cut' : List (List UInt8)) (hstream : cut.flatten = cut'.flatten)
    (hsafe : SafeCut e cut (Receiver.start state)) (hsafe' : SafeCut e cut' (Receiver.start state))
    (stack stack' : Nat → Nat → UInt8) (msg msg' : Msg) :
    readAll e stack cut state msg = readAll e stack' cut' state msg' := by
  rw [readAll_eq_scan stack cut state msg hsafe, readAll_eq_scan stack' cut' state msg' hsafe',
    hstream]

/-- The frame of a message of eight zero bytes. -/
def zeroFrame : List UInt8 := MSG_MARK :: List.replicate 8 0

theorem safe_cuts_return_the_same_frames :
    readAll .little (fun _ _ => 0) [zeroFrame ++ [1, 2], zeroFrame] .desyn ⟨0, 0, fun _ => 0⟩ =
      readAll .little (fun _ _ => 1) [zeroFrame, [1], [2, MSG_MARK], [], List.replicate 8 0] .desyn
        ⟨5, 6, fun _ => 7⟩ :=
  safe_cuts_return_the_same .little .desyn _ _ (by decide) (by decide) (by decide) _ _ _ _

/-- Two frames in one piece: the second is lost. -/
theorem frame_lost_in_piece :
    [zeroFrame ++ zeroFrame].flatten = [zeroFrame, zeroFrame].flatten ∧
      readAll .little (fun _ _ => 0) [zeroFrame ++ zeroFrame] .desyn ⟨0, 0, fun _ => 0⟩ ≠
        readAll .little (fun _ _ => 0) [zeroFrame, zeroFrame] .desyn ⟨0, 0, fun _ => 0⟩ := by
  decide

end Plo.Phfs
