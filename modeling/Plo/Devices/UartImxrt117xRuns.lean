import Plo.Devices.UartImxrt117x

/-!
Runs of the serial driver of the i.MX RT 117x and the MCX N94x. What is written goes out
once and in order, and what comes in is read once and in order, except for bytes that
found a full FIFO or had to make room in a full ring. But when the handler runs before
the first write, the ring looks full of zeros to it, and they go out first.
-/
namespace Plo.Devices.UartImxrt117x
open Plo.Critical (Code)
open Plo.Interrupts Plo.Devices.Uart

/-- The ring for receiving holds `rq`; the handler is about to put `rx` on it. -/
structure RxHolds (h : History UartOp UartResult) (rx rq : List UInt8) (u : Uart) : Prop where
  ring : OnRing BUFFER_SIZE u.rxBuff u.rxTail u.rxHead rq
  tail_lt : u.rxTail < BUFFER_SIZE
  received : u.hw.Received (delivered h.log ++ rq ++ rx)

/-- The ring for sending holds `tq`, the handler has taken `tx` from it; what goes out
begins with `pre`. -/
structure TxHolds (txFifoSz : Nat) (h : History UartOp UartResult) (here : Option UartOp)
    (pre tx tq : List UInt8) (u : Uart) : Prop where
  ring : OnRing BUFFER_SIZE u.txBuff (u.txHead + 1) u.txTail tq
  head_lt : u.txHead < BUFFER_SIZE
  transmits : u.hw.Transmits txFifoSz (tx ++ tq ++ unwritten here) (pre ++ written h.calls)
  pre : pre = [] ∨ pre = zeros
  enabled : written h.calls = unwritten here ∨ (tq ≠ [] → u.hw.ctrlr &&& TIE ≠ 0)

/-- Nothing has been sent yet. -/
structure Fresh (h : History UartOp UartResult) (here : Option UartOp) (u : Uart) : Prop where
  head : u.txHead = 0
  tail : u.txTail = 0
  full : u.tFull = false
  buff : u.txBuff = fun _ => 0
  line : u.hw.line = []
  fifo : u.hw.txFifo = []
  written : written h.calls = unwritten here

/-- `tFull` tells a full ring from one that nothing was ever put on. -/
def TxGood (txFifoSz : Nat) (h : History UartOp UartResult) (here : Option UartOp) (u : Uart) :
    Prop :=
  Fresh h here u ∨ ∃ pre tq, TxHolds txFifoSz h here pre [] tq u ∧
    (u.tFull = true ↔ tq.length + 1 = BUFFER_SIZE)

structure Good (txFifoSz : Nat) (h : History UartOp UartResult) (here : Option UartOp) (u : Uart) :
    Prop where
  rx : ∃ rq, RxHolds h [] rq u
  tx : TxGood txFifoSz h here u
  log : ∀ e ∈ h.log, e.2.Fits e.1
  callable : ∀ op ∈ here, Callable op

def Uart.Full (u : Uart) : Prop := u.txHead = u.txTail ∧ u.tFull = true

/-- What the handler does to the rings, as far as a poll can rely on it. -/
structure Grows (u u' : Uart) : Prop where
  rx : u'.rxHead = u'.rxTail → u'.rxHead = u.rxHead ∧ u'.rxTail = u.rxTail
  tail : u'.txTail = u.txTail
  tx : ¬u.Full → ¬u'.Full

theorem Grows.refl (u : Uart) : Grows u u := ⟨fun _ => ⟨rfl, rfl⟩, rfl, id⟩

theorem Grows.trans {u₁ u₂ u₃ : Uart} (h₁ : Grows u₁ u₂) (h₂ : Grows u₂ u₃) : Grows u₁ u₃ := by
  refine ⟨fun hempty => ?_, h₂.tail.trans h₁.tail, h₂.tx ∘ h₁.tx⟩
  obtain ⟨hhead, htail⟩ := h₂.rx hempty
  have hempty₂ : u₂.rxHead = u₂.rxTail := hhead.symm.trans (hempty.trans htail)
  obtain ⟨hhead₁, htail₁⟩ := h₁.rx hempty₂
  exact ⟨hhead.trans hhead₁, htail.trans htail₁⟩

section States
variable {rxFifoSz txFifoSz : Nat} {h : History UartOp UartResult} {here : Option UartOp}
  {pre rx tx rq tq : List UInt8} {u : Uart} {c : UInt8}

theorem RxHolds.act (hu : RxHolds h rx rq u) (e : LineEvent) :
    RxHolds h rx rq { u with hw := u.hw.act rxFifoSz e } :=
  ⟨hu.ring, hu.tail_lt, hu.received.act e⟩

theorem TxHolds.act (hu : TxHolds txFifoSz h here pre tx tq u) (e : LineEvent) :
    TxHolds txFifoSz h here pre tx tq { u with hw := u.hw.act rxFifoSz e } := by
  refine ⟨hu.ring, hu.head_lt, hu.transmits.act e, hu.pre, ?_⟩
  rw [Lpuart.ctrlr_act]
  exact hu.enabled

theorem Fresh.act (hu : Fresh h here u) (e : LineEvent) :
    Fresh h here { u with hw := u.hw.act rxFifoSz e } := by
  have hidle : (u.hw.act rxFifoSz e).line = [] ∧ (u.hw.act rxFifoSz e).txFifo = [] :=
    Lpuart.act_idle hu.line hu.fifo e
  exact ⟨hu.head, hu.tail, hu.full, hu.buff, hidle.1, hidle.2, hu.written⟩

theorem TxGood.act (hu : TxGood txFifoSz h here u) (e : LineEvent) :
    TxGood txFifoSz h here { u with hw := u.hw.act rxFifoSz e } := by
  rcases hu with hu | ⟨pre, tq, hu, hfull⟩
  · exact Or.inl (hu.act e)
  · exact Or.inr ⟨pre, tq, hu.act e, hfull⟩

theorem Good.act (rxFifoSz : Nat) (hu : Good txFifoSz h here u) (e : LineEvent) :
    Good txFifoSz h here { u with hw := u.hw.act rxFifoSz e } := by
  obtain ⟨rq, hrx⟩ := hu.rx
  exact ⟨⟨rq, hrx.act e⟩, hu.tx.act e, hu.log, hu.callable⟩

theorem length_zeros : zeros.length = BUFFER_SIZE - 1 := List.length_replicate

/-- What happens to the ring for receiving makes no difference to sending. -/
theorem TxGood.frame (hu : TxGood txFifoSz h here u) (l : Lpuart) (hline : l.line = u.hw.line)
    (hfifo : l.txFifo = u.hw.txFifo) (hctrlr : l.ctrlr = u.hw.ctrlr) (rxBuff : Nat → UInt8)
    (rxHead rxTail : Nat) : TxGood txFifoSz h here
      { u with hw := l, rxBuff := rxBuff, rxHead := rxHead, rxTail := rxTail } := by
  rcases hu with hu | ⟨pre, tq, hu, hfull⟩
  · exact Or.inl ⟨hu.head, hu.tail, hu.full, hu.buff, hline.trans hu.line, hfifo.trans hu.fifo,
      hu.written⟩
  · refine Or.inr ⟨pre, tq, ⟨hu.ring, hu.head_lt, ⟨?_, ?_⟩, hu.pre, ?_⟩, hfull⟩
    · rw [hline, hfifo]
      exact hu.transmits.bytes
    · rw [hfifo]
      exact hu.transmits.room
    · rw [hctrlr]
      exact hu.enabled

/-- To the handler a ring on which nothing was put yet is full of zeros. -/
theorem Fresh.holds (hu : Fresh h here u) (txFifoSz : Nat) :
    TxHolds txFifoSz h here zeros [] zeros u := by
  refine ⟨⟨?_, ?_, ?_⟩, ?_, ⟨?_, ?_⟩, Or.inr rfl, Or.inl hu.written⟩
  · rw [length_zeros]
    decide
  · rw [hu.head, hu.tail, length_zeros]
    rfl
  · rw [hu.buff, length_zeros, window, List.map_const', List.length_range, zeros]
  · rw [hu.head]
    decide
  · rw [hu.line, hu.fifo, hu.written]
    rfl
  · rw [hu.fifo]
    exact Nat.zero_le _

/-- A received byte is put on the ring, where it may take the place of the oldest. -/
theorem RxHolds.keep (hu : RxHolds h [c] rq u) :
    (∃ rq', RxHolds h [] rq' (u.keep c)) ∧ (u.keep c).rxHead ≠ (u.keep c).rxTail := by
  obtain ⟨hring, htail, hreceived⟩ := hu
  have hlt := hring.length_lt
  have hcases := hring.stop_cases htail
  by_cases hroom : rq.length + 1 < BUFFER_SIZE
  · have hkept := hring.append [c] hroom
    have hne : (u.rxHead + 1) % BUFFER_SIZE ≠ u.rxTail := fun heq =>
      List.append_ne_nil_of_right_ne_nil _ (List.cons_ne_nil c [])
        ((hkept.stop_eq_start_iff htail).mp heq)
    have hwrite : ringWrite BUFFER_SIZE u.rxBuff u.rxHead [c] = overlay u.rxBuff u.rxHead [c] := by
      rw [ringWrite, Nat.mod_eq_of_lt hring.stop_lt, ringWrite]
    rw [hwrite] at hkept
    simp only [Uart.keep, if_neg hne]
    refine ⟨⟨rq ++ [c], hkept, htail, ?_⟩, hne⟩
    rw [List.append_nil, ← List.append_assoc]
    exact hreceived
  · have hfull : rq.length + 1 = BUFFER_SIZE := by omega
    have hkept := OnRing.start_mod.mpr (hring.evict hfull c)
    have heq : (u.rxHead + 1) % BUFFER_SIZE = u.rxTail := by
      rw [hring.stop_eq, Nat.mod_add_mod, Nat.add_assoc, hfull, Nat.add_mod_right,
        Nat.mod_eq_of_lt htail]
    have htail' : (u.rxTail + 1) % BUFFER_SIZE < BUFFER_SIZE := Nat.mod_lt _ (by decide)
    simp only [Uart.keep, if_pos heq]
    refine ⟨⟨(rq ++ [c]).tail, hkept, htail', ?_⟩, fun hempty => ?_⟩
    · rw [List.append_nil]
      refine hreceived.lose ?_ ?_
      · rw [List.append_assoc]
        exact (List.Sublist.refl _).append (List.tail_sublist _)
      · simp only [List.length_append, List.length_tail, List.length_singleton, Nat.add_sub_cancel]
    · have hnil := (hkept.stop_eq_start_iff htail').mp hempty
      have hlen := congrArg List.length hnil
      have hsize : BUFFER_SIZE = 0x200 := rfl
      simp only [List.length_tail, List.length_append, List.length_singleton, List.length_nil] at hlen
      omega

/-- The handler takes the next byte of the ring. -/
theorem TxHolds.take (hu : TxHolds txFifoSz h here pre [] (c :: tq) u) :
    TxHolds txFifoSz h here pre [c] tq { u with txHead := (u.txHead + 1) % BUFFER_SIZE } ∧
      u.txBuff ((u.txHead + 1) % BUFFER_SIZE) = c := by
  refine ⟨⟨?_, Nat.mod_lt _ (by decide), hu.transmits, hu.pre, ?_⟩, hu.ring.front⟩
  · have hdrop := OnRing.start_mod.mpr (hu.ring.drop (n := 1) (Nat.le_add_left 1 tq.length))
    have hmod : (u.txHead + 1 + 1) % BUFFER_SIZE = ((u.txHead + 1) % BUFFER_SIZE + 1) % BUFFER_SIZE :=
      (Nat.mod_add_mod ..).symm
    rw [hmod] at hdrop
    exact OnRing.start_mod.mp hdrop
  · exact hu.enabled.imp_right fun htie _ => htie (List.cons_ne_nil c tq)

theorem TxHolds.send (hu : TxHolds txFifoSz h here pre [c] tq u)
    (hroom : u.hw.txFifo.length < txFifoSz) :
    TxHolds txFifoSz h here pre [] tq { u with hw := u.hw.send txFifoSz c } := by
  refine ⟨hu.ring, hu.head_lt, hu.transmits.send hroom, hu.pre, ?_⟩
  rw [Lpuart.ctrlr_send]
  exact hu.enabled

/-- The handler sees that the ring is empty. -/
theorem TxHolds.last_iff (hu : TxHolds txFifoSz h here pre tx tq u) :
    (u.txHead + 1) % BUFFER_SIZE = u.txTail ↔ tq = [] := by
  have hring := OnRing.start_mod.mpr hu.ring
  rw [eq_comm]
  exact hring.stop_eq_start_iff (Nat.mod_lt _ (by decide))

/-- The ends of the ring meet when it is full. -/
theorem TxHolds.head_eq_tail_iff (hu : TxHolds txFifoSz h here pre tx tq u) :
    u.txHead = u.txTail ↔ tq.length + 1 = BUFFER_SIZE := by
  have hlt := hu.ring.length_lt
  have hhead := hu.head_lt
  have hstop := hu.ring.stop_eq
  rw [Nat.add_assoc, mod_ring hhead (by omega)] at hstop
  split at hstop <;> omega

end States

section Handler
variable {rxFifoSz txFifoSz : Nat} {h : History UartOp UartResult} {here : Option UartOp}
  {rx : List UInt8} {u u₀ : Uart} {c : UInt8}

/-- Inside the handler, except for what it is doing to the ring for sending. -/
structure Mid (h : History UartOp UartResult) (rx : List UInt8) (u₀ u : Uart) : Prop where
  rx : ∃ rq, RxHolds h rx rq u
  grows : u.rxHead = u.rxTail → u.rxHead = u₀.rxHead ∧ u.rxTail = u₀.rxTail
  tail : u.txTail = u₀.txTail

theorem Mid.act (hu : Mid h rx u₀ u) (e : LineEvent) :
    Mid h rx u₀ { u with hw := u.hw.act rxFifoSz e } := by
  obtain ⟨rq, hrx⟩ := hu.rx
  exact ⟨⟨rq, hrx.act e⟩, hu.grows, hu.tail⟩

/-- Between two rounds of a loop. -/
structure Round (txFifoSz : Nat) (h : History UartOp UartResult) (here : Option UartOp)
    (rx : List UInt8) (u₀ u : Uart) : Prop where
  mid : Mid h rx u₀ u
  tx : TxGood txFifoSz h here u
  full : ¬u₀.Full → ¬u.Full

theorem Round.act (hu : Round txFifoSz h here rx u₀ u) (e : LineEvent) :
    Round txFifoSz h here rx u₀ { u with hw := u.hw.act rxFifoSz e } :=
  ⟨hu.mid.act e, hu.tx.act e, hu.full⟩

theorem Round.pop (hu : Round txFifoSz h here [] u₀ u) (hfifo : u.hw.rxFifo ≠ []) :
    Round txFifoSz h here [u.hw.front] u₀ { u with hw := u.hw.pop } := by
  obtain ⟨rq, hrx⟩ := hu.mid.rx
  have hpop := hrx.received.pop hfifo
  rw [List.append_nil] at hpop
  exact ⟨⟨⟨rq, hrx.ring, hrx.tail_lt, hpop⟩, hu.mid.grows, hu.mid.tail⟩,
    hu.tx.frame u.hw.pop rfl rfl rfl u.rxBuff u.rxHead u.rxTail, hu.full⟩

theorem Round.keep (hu : Round txFifoSz h here [c] u₀ u) :
    Round txFifoSz h here [] u₀ (u.keep c) := by
  obtain ⟨rq, hrx⟩ := hu.mid.rx
  obtain ⟨hrx', hne⟩ := hrx.keep
  refine ⟨⟨hrx', fun hempty => absurd hempty hne, hu.mid.tail⟩, ?_, hu.full⟩
  refine hu.tx.frame _ ?_ ?_ ?_ _ _ _ <;> split <;> rfl

variable (fuel : Nat)

theorem stable_round :
    Stable (Hw (program rxFifoSz txFifoSz fuel)) (Round txFifoSz h here rx u₀) :=
  Hw.stable fun _ e hu => hu.act e

/-- A round of the receive loop. -/
theorem under_receive (hu : Round txFifoSz h here [] u₀ u) :
    Under (Hw (program rxFifoSz txFifoSz fuel)) (fun _ u' => Round txFifoSz h here [] u₀ u')
      receive u := by
  refine (stable_round fuel).read hu fun u hu => ?_
  split
  · next hcount =>
    have hfifo : u.hw.rxFifo ≠ [] := by
      intro hnil
      rw [Lpuart.getRXcount_eq, hnil] at hcount
      exact hcount rfl
    have hstable : Stable (Hw (program rxFifoSz txFifoSz fuel))
        fun u => Round txFifoSz h here [] u₀ u ∧ u.hw.rxFifo ≠ [] :=
      Hw.stable fun _ e hu => ⟨hu.1.act e, Lpuart.rxFifo_act hu.2 e⟩
    refine hstable.access ⟨hu, hfifo⟩ fun u hu => ?_
    refine (stable_round fuel).write (hu.1.pop hu.2) fun u hu => ?_
    exact (stable_round fuel).pure hu.keep fun _ hu => hu
  · exact (stable_round fuel).pure hu fun _ hu => hu

/-- A byte is on its way from the ring to the FIFO; `tFull` is not yet cleared. -/
structure Sending (txFifoSz : Nat) (h : History UartOp UartResult) (here : Option UartOp)
    (tx : List UInt8) (u₀ u : Uart) : Prop where
  mid : Mid h [] u₀ u
  tx : ∃ pre tq, TxHolds txFifoSz h here pre tx tq u ∧ tq.length + 1 < BUFFER_SIZE

theorem Sending.act {tx : List UInt8} (hu : Sending txFifoSz h here tx u₀ u) (e : LineEvent) :
    Sending txFifoSz h here tx u₀ { u with hw := u.hw.act rxFifoSz e } := by
  obtain ⟨pre, tq, htx, hlt⟩ := hu.tx
  exact ⟨hu.mid.act e, pre, tq, htx.act e, hlt⟩

/-- Unless the handler sees an empty ring, it sees a byte to send. -/
theorem TxGood.next (hu : TxGood txFifoSz h here u)
    (hmore : (u.txHead + 1) % BUFFER_SIZE ≠ u.txTail) :
    ∃ pre c tq, TxHolds txFifoSz h here pre [] (c :: tq) u := by
  rcases hu with hfresh | ⟨pre, tq, htx, -⟩
  · exact ⟨zeros, 0, List.replicate (BUFFER_SIZE - 2) 0, hfresh.holds txFifoSz⟩
  · obtain ⟨c, tq, rfl⟩ := List.exists_cons_of_ne_nil (mt htx.last_iff.mpr hmore)
    exact ⟨pre, c, tq, htx⟩

/-- The handler finds the ring empty and turns its interrupt off. -/
theorem Round.clear (hu : Round txFifoSz h here [] u₀ u)
    (hlast : (u.txHead + 1) % BUFFER_SIZE = u.txTail) :
    Round txFifoSz h here [] u₀ { u with hw := u.hw.setCtrlr (u.hw.ctrlr &&& ~~~TIE) } := by
  obtain ⟨rq, hrx⟩ := hu.mid.rx
  have hreceived := hrx.received
  refine ⟨⟨⟨rq, hrx.ring, hrx.tail_lt, hreceived.order, hreceived.count⟩, hu.mid.grows, hu.mid.tail⟩,
    Or.inr ?_, hu.full⟩
  rcases hu.tx with hfresh | ⟨pre, tq, htx, hfull⟩
  · rw [hfresh.head, hfresh.tail] at hlast
    exact absurd hlast (by decide)
  · obtain rfl := htx.last_iff.mp hlast
    exact ⟨pre, [], ⟨htx.ring, htx.head_lt, ⟨htx.transmits.bytes, htx.transmits.room⟩, htx.pre,
      Or.inr fun hne => absurd rfl hne⟩, hfull⟩

theorem Round.take (hu : Round txFifoSz h here [] u₀ u)
    (hmore : (u.txHead + 1) % BUFFER_SIZE ≠ u.txTail) :
    Sending txFifoSz h here [u.txBuff ((u.txHead + 1) % BUFFER_SIZE)] u₀
      { u with txHead := (u.txHead + 1) % BUFFER_SIZE } := by
  obtain ⟨pre, c, tq, htx⟩ := hu.tx.next hmore
  obtain ⟨rq, hrx⟩ := hu.mid.rx
  obtain ⟨htaken, hc⟩ := htx.take
  rw [hc]
  exact ⟨⟨⟨rq, hrx.ring, hrx.tail_lt, hrx.received⟩, hu.mid.grows, hu.mid.tail⟩,
    pre, tq, htaken, htx.ring.length_lt⟩

theorem Sending.send (hu : Sending txFifoSz h here [c] u₀ u)
    (hroom : u.hw.txFifo.length < txFifoSz) :
    Sending txFifoSz h here [] u₀ { u with hw := u.hw.send txFifoSz c } := by
  obtain ⟨rq, hrx⟩ := hu.mid.rx
  obtain ⟨pre, tq, htx, hlt⟩ := hu.tx
  exact ⟨⟨⟨rq, hrx.ring, hrx.tail_lt, hrx.received.send c⟩, hu.mid.grows, hu.mid.tail⟩,
    pre, tq, htx.send hroom, hlt⟩

theorem Sending.done (hu : Sending txFifoSz h here [] u₀ u) :
    Round txFifoSz h here [] u₀ { u with tFull := false } := by
  obtain ⟨rq, hrx⟩ := hu.mid.rx
  obtain ⟨pre, tq, htx, hlt⟩ := hu.tx
  refine ⟨⟨⟨rq, hrx.ring, hrx.tail_lt, hrx.received⟩, hu.mid.grows, hu.mid.tail⟩,
    Or.inr ⟨pre, tq, ⟨htx.ring, htx.head_lt, htx.transmits, htx.pre, htx.enabled⟩, ?_⟩, ?_⟩
  · exact iff_of_false Bool.false_ne_true hlt.ne
  · exact fun _ hfull => Bool.false_ne_true hfull.2

/-- A round of the transmit loop. -/
theorem under_transmit (hsz : txFifoSz < 256) (hu : Round txFifoSz h here [] u₀ u) :
    Under (Hw (program rxFifoSz txFifoSz fuel)) (fun _ u' => Round txFifoSz h here [] u₀ u')
      (transmit txFifoSz) u := by
  refine (stable_round fuel).read hu fun u hu => ?_
  split
  · next hcount =>
    have hroom : u.hw.txFifo.length < txFifoSz := by
      have hle : u.hw.txFifo.length ≤ txFifoSz := by
        rcases hu.tx with hfresh | ⟨pre, tq, htx, -⟩
        · exact (hfresh.holds txFifoSz).transmits.room
        · exact htx.transmits.room
      rwa [Lpuart.getTXcount_eq, Nat.mod_eq_of_lt (by omega)] at hcount
    have hstable : ∀ P : Uart → Prop, (∀ u e, P u → P { u with hw := u.hw.act rxFifoSz e }) →
        Stable (Hw (program rxFifoSz txFifoSz fuel)) fun u => P u ∧ u.hw.txFifo.length < txFifoSz :=
      fun P hP => Hw.stable fun _ e hu => ⟨hP _ e hu.1, Lpuart.room_act hu.2 e⟩
    refine (hstable (Round txFifoSz h here [] u₀) fun _ e hu => hu.act e).read ⟨hu, hroom⟩
      fun u hu => ?_
    split
    · next hlast =>
      have hstable : Stable (Hw (program rxFifoSz txFifoSz fuel))
          fun u => Round txFifoSz h here [] u₀ u ∧ (u.txHead + 1) % BUFFER_SIZE = u.txTail :=
        Hw.stable fun _ e hu => ⟨hu.1.act e, hu.2⟩
      refine hstable.write ⟨hu.1, of_decide_eq_true hlast⟩ fun u hu => ?_
      exact (stable_round fuel).pure (hu.1.clear hu.2) fun _ hu => hu
    · next hmore =>
      refine (hstable
        (fun u => Round txFifoSz h here [] u₀ u ∧ (u.txHead + 1) % BUFFER_SIZE ≠ u.txTail)
        fun _ e hu => ⟨hu.1.act e, hu.2⟩).write ⟨⟨hu.1, fun heq => hmore (decide_eq_true heq)⟩, hu.2⟩
        fun u hu => ?_
      have htaken := hu.1.1.take hu.1.2
      refine (hstable (fun u => Sending txFifoSz h here [u.txBuff u.txHead] u₀ u)
        fun _ e hu => hu.act e).write (d := { u with txHead := (u.txHead + 1) % BUFFER_SIZE })
        ⟨htaken, hu.2⟩ fun u hu => ?_
      have hsent : Stable (Hw (program rxFifoSz txFifoSz fuel)) (Sending txFifoSz h here [] u₀) :=
        Hw.stable fun _ e hu => hu.act e
      refine hsent.write (hu.1.send hu.2) fun u hu => ?_
      exact (stable_round fuel).pure hu.done fun _ hu => hu
  · exact (stable_round fuel).pure hu fun _ hu => hu

/-- The handler keeps what the rings and the lines hold together. -/
theorem under_handler (hsz : txFifoSz < 256) (hu : Round txFifoSz h here [] u₀ u) :
    Under (Hw (program rxFifoSz txFifoSz fuel)) (fun _ u' => Round txFifoSz h here [] u₀ u')
      (handleIntr txFifoSz fuel) u := by
  have hrefl : ∀ d, Hw (program rxFifoSz txFifoSz fuel) d d := fun _ => .refl
  refine under_bind hrefl
    (Under.mono (Q := fun _ u => Round txFifoSz h here [] u₀ u) ?_ fun _ u hu => ?_)
  · exact (stable_round fuel).loop hu hrefl (fun u hu => under_receive fuel hu) fuel
  · exact (stable_round fuel).loop hu hrefl (fun u hu => under_transmit fuel hsz hu) fuel

end Handler

section Calls
variable {rxFifoSz txFifoSz : Nat} {h h' : History UartOp UartResult} {here here' : Option UartOp}
  {u : Uart}

/-- Sending is about what calls have written and have still to write. -/
theorem TxGood.congr (hu : TxGood txFifoSz h here u) (hcalls : written h'.calls = written h.calls)
    (hhere : unwritten here' = unwritten here) : TxGood txFifoSz h' here' u := by
  rcases hu with hu | ⟨pre, tq, hu, hfull⟩
  · exact Or.inl { hu with written := hcalls.trans (hu.written.trans hhere.symm) }
  · refine Or.inr ⟨pre, tq, { hu with transmits := ?_, enabled := ?_ }, hfull⟩
    · rw [hcalls, hhere]
      exact hu.transmits
    · rw [hcalls, hhere]
      exact hu.enabled

theorem TxGood.call (hu : TxGood txFifoSz h none u) (op : UartOp) :
    TxGood txFifoSz (h.call op) (some op) u := by
  have hcalls : written (h.call op).calls = written h.calls ++ op.bytes := written_append h.calls op
  rcases hu with hu | ⟨pre, tq, hu, hfull⟩
  · refine Or.inl { hu with written := ?_ }
    rw [hcalls, hu.written]
    rfl
  · refine Or.inr ⟨pre, tq, { hu with transmits := ⟨?_, hu.transmits.room⟩, enabled := ?_ }, hfull⟩
    · rw [hcalls, ← List.append_assoc pre, ← hu.transmits.bytes]
      simp
    · refine hu.enabled.imp_left fun hnone => ?_
      rw [hcalls, hnone]
      rfl

variable (fuel : Nat)

theorem stable_good : Stable (Hw (program rxFifoSz txFifoSz fuel)) (Good txFifoSz h here) :=
  Hw.stable fun _ e hu => hu.act _ e

/-- `uart_read` with the interrupt off. -/
theorem under_read_body {len : Nat} (hu : Good txFifoSz h (some (.read len)) u)
    (hne : u.rxHead ≠ u.rxTail) :
    Under (Hw (program rxFifoSz txFifoSz fuel))
      (fun r u' => Good txFifoSz (h.ret (.read len) r.1) r.2 u') (body txFifoSz (.read len)) u := by
  have hstable : Stable (Hw (program rxFifoSz txFifoSz fuel))
      fun u => Good txFifoSz h (some (.read len)) u ∧ u.rxHead ≠ u.rxTail :=
    Hw.stable fun _ e hu => ⟨hu.1.act _ e, hu.2⟩
  refine hstable.access ⟨hu, hne⟩ fun u hu => ?_
  obtain ⟨hu, hne⟩ := hu
  obtain ⟨rq, hrx⟩ := hu.rx
  have hrq : rq ≠ [] := mt (hrx.ring.stop_eq_start_iff hrx.tail_lt).mpr hne
  have hcopy := copyOut_eq hrx.ring hrx.tail_lt hrq len
  have hlen : (rq.take len).length = min len rq.length := List.length_take
  have htake : rq.take len ++ rq.drop (min len rq.length) = rq := by
    rw [List.take_eq_take_min, List.take_append_drop]
  rw [hcopy, hlen]
  refine (stable_good fuel).pure (Good.mk ⟨rq.drop (min len rq.length), ?_, ?_, ?_⟩ ?_ ?_ ?_)
    fun _ hu => hu
  · exact OnRing.start_mod.mpr (hrx.ring.drop (Nat.min_le_right _ _))
  · exact Nat.mod_lt _ (by decide)
  · have hreceived := hrx.received
    rw [List.append_nil] at hreceived
    rwa [History.ret, delivered_append, List.append_nil, List.append_assoc, htake]
  · exact (hu.tx.frame u.hw rfl rfl rfl u.rxBuff u.rxHead _).congr rfl rfl
  · refine fits_ret hu.log (Or.inr ⟨?_, ?_, fun hpos hnil => ?_⟩)
    · rw [hlen]
    · rw [hlen]
      exact Nat.min_le_left _ _
    · exact (List.take_eq_nil_iff.mp hnil).elim (by omega) hrq
  · rintro _ ⟨⟩

/-- The rest of `uart_write` once the bytes are copied. -/
def Uart.finish (cnt : Nat) (u : Uart) : Uart :=
  let u := u.advance cnt
  { u with hw := u.hw.setCtrlr (u.hw.ctrlr ||| TIE) }

/-- Where `uart_safeWrite` goes on. -/
def rest (data : List UInt8) (cnt : Nat) : Option UartOp :=
  if data.drop cnt = [] then none else some (.write (data.drop cnt))

theorem unwritten_rest (data : List UInt8) (cnt : Nat) :
    unwritten (rest data cnt) = data.drop cnt := by
  rw [rest]
  split
  · next hnil => exact hnil.symm
  · rfl

/-- When `uart_write` ends as `TxGood` says, the state is good. -/
theorem Good.ret {data : List UInt8} {cnt : Nat} (hlog : ∀ e ∈ h.log, e.2.Fits e.1)
    (hpos : 1 ≤ cnt) (hle : cnt ≤ data.length) (hrx : ∃ rq, RxHolds h [] rq u)
    (htx : ∃ pre tq, TxHolds txFifoSz (h.ret (.write data) ⟨cnt, []⟩) (rest data cnt) pre [] tq u ∧
      (u.tFull = true ↔ tq.length + 1 = BUFFER_SIZE)) :
    Good txFifoSz (h.ret (.write data) ⟨cnt, []⟩) (rest data cnt) u := by
  obtain ⟨rq, hrx⟩ := hrx
  refine ⟨⟨rq, hrx.ring, hrx.tail_lt, ?_⟩, Or.inr htx, fits_ret hlog ⟨?_, ?_, rfl⟩, fun op hop => ?_⟩
  · rw [delivered_ret_nil]
    exact hrx.received
  · exact Int.ofNat_le.mpr hpos
  · exact Int.ofNat_le.mpr hle
  · rw [rest] at hop
    split at hop
    · cases hop
    · next hne =>
      cases hop
      exact hne

theorem Uart.finish_act (u : Uart) (cnt : Nat) (e : LineEvent) :
    { u with hw := u.hw.act rxFifoSz e }.finish cnt =
      { u.finish cnt with hw := (u.finish cnt).hw.act rxFifoSz e } := by
  simp only [Uart.finish, Uart.advance, Lpuart.act_setCtrlr, Lpuart.ctrlr_act]

/-- Bytes put behind those the ring has. -/
theorem TxHolds.finish {pre tq data : List UInt8} {cnt : Nat}
    (hu : TxHolds txFifoSz h (some (.write data)) pre [] tq u) (hcnt : cnt ≤ data.length)
    (hroom : tq.length + cnt < BUFFER_SIZE) (hfull : u.tFull = false) (r : UartResult) :
    let u' := { u with txBuff := ringWrite BUFFER_SIZE u.txBuff u.txTail (data.take cnt) }.finish cnt
    TxHolds txFifoSz (h.ret (.write data) r) (rest data cnt) pre [] (tq ++ data.take cnt) u' ∧
      (u'.tFull = true ↔ (tq ++ data.take cnt).length + 1 = BUFFER_SIZE) := by
  have hlen : (data.take cnt).length = cnt := List.length_take_of_le hcnt
  have hring := hu.ring.append (data.take cnt) (by rwa [hlen])
  rw [hlen] at hring
  have hholds : TxHolds txFifoSz (h.ret (.write data) r) (rest data cnt) pre [] (tq ++ data.take cnt)
      ({ u with txBuff := ringWrite BUFFER_SIZE u.txBuff u.txTail (data.take cnt) }.finish cnt) := by
    refine ⟨hring, hu.head_lt, ⟨?_, hu.transmits.room⟩, hu.pre, Or.inr fun _ => Lpuart.enabled_or _⟩
    rw [unwritten_rest, List.nil_append, List.append_assoc tq, List.take_append_drop]
    exact hu.transmits.bytes
  refine ⟨hholds, ?_⟩
  rw [← hholds.head_eq_tail_iff]
  simp only [Uart.finish, Uart.advance, hfull]
  split
  · next heq => exact iff_of_true rfl heq.symm
  · next hne => exact iff_of_false Bool.false_ne_true fun heq => hne heq.symm

/-- The first bytes of all are on the ring, and none of them has been sent. -/
structure First (data : List UInt8) (cnt : Nat) (u : Uart) : Prop where
  head : u.txHead = 0
  tail : u.txTail = 0
  full : u.tFull = false
  buff : u.txBuff = ringWrite BUFFER_SIZE (fun _ => 0) 0 (data.take cnt)
  line : u.hw.line = []
  fifo : u.hw.txFifo = []

theorem First.act {data : List UInt8} {cnt : Nat} (hu : First data cnt u) (e : LineEvent) :
    First data cnt { u with hw := u.hw.act rxFifoSz e } := by
  have hidle : (u.hw.act rxFifoSz e).line = [] ∧ (u.hw.act rxFifoSz e).txFifo = [] :=
    Lpuart.act_idle hu.line hu.fifo e
  exact ⟨hu.head, hu.tail, hu.full, hu.buff, hidle.1, hidle.2⟩

/-- The first byte is sent at once, the others are left to the handler. -/
theorem First.finish {data : List UInt8} {cnt : Nat} (hu : First data cnt u) (hsz : 0 < txFifoSz)
    (hpos : 0 < cnt) (hcnt : cnt ≤ data.length) (hle : cnt ≤ BUFFER_SIZE)
    (hwritten : written h.calls = data) (r : UartResult) :
    let u' := (u.start txFifoSz).finish cnt
    TxHolds txFifoSz (h.ret (.write data) r) (rest data cnt) [] [] (data.take cnt).tail u' ∧
      (u'.tFull = true ↔ (data.take cnt).tail.length + 1 = BUFFER_SIZE) := by
  have hlen : (data.take cnt).length = cnt := List.length_take_of_le hcnt
  have hwindow : window BUFFER_SIZE (ringWrite BUFFER_SIZE (fun _ => 0) (0 + 0) (data.take cnt)) 0
      (0 + (data.take cnt).length) = _ :=
    window_ringWrite _ _ _ _ (by rw [hlen, Nat.zero_add]; exact hle)
  rw [hlen, Nat.zero_add, Nat.zero_add] at hwindow
  obtain ⟨c, tl, hdata⟩ := List.exists_cons_of_length_pos (hpos.trans_eq hlen.symm)
  rw [hdata] at hlen hwindow
  have hbuff := hu.buff
  rw [hdata] at hbuff
  rw [← hbuff] at hwindow
  obtain ⟨hc, htl⟩ : u.txBuff 0 = c ∧ window BUFFER_SIZE u.txBuff 1 tl.length = tl := by
    rw [← hlen, List.length_cons, Nat.add_comm tl.length, window_add] at hwindow
    exact List.cons.inj hwindow
  rw [List.length_cons] at hlen
  have hstart : u.start txFifoSz = { u with hw := u.hw.send txFifoSz c } := by
    rw [Uart.start, if_pos (hu.tail.trans hu.head.symm), hu.head, hc]
  have hsend : u.hw.send txFifoSz c = { u.hw with txFifo := [c] } := by
    rw [Lpuart.send, hu.fifo, if_pos (by exact hsz), List.nil_append]
  rw [hstart, hsend, hdata, List.tail_cons]
  have hholds : TxHolds txFifoSz (h.ret (.write data) r) (rest data cnt) [] [] tl
      (Uart.finish cnt { u with hw := { u.hw with txFifo := [c] } }) := by
    refine ⟨⟨by omega, ?_, ?_⟩, ?_, ⟨?_, hsz⟩, Or.inl rfl, Or.inr fun _ => Lpuart.enabled_or _⟩
    · simp only [Uart.finish, Uart.advance, hu.head, hu.tail]
      congr 1
      omega
    · simp only [Uart.finish, Uart.advance, hu.head]
      exact htl.symm
    · simp only [Uart.finish, Uart.advance, hu.head]
      decide
    · have hall : [c] ++ (tl ++ data.drop cnt) = data := by
        rw [← List.append_assoc, List.singleton_append, ← hdata, List.take_append_drop]
      simp only [Uart.finish, Uart.advance, Lpuart.setCtrlr, hu.line, unwritten_rest, History.ret,
        hwritten, List.nil_append]
      exact hall
  refine ⟨hholds, ?_⟩
  rw [← hholds.head_eq_tail_iff]
  simp only [Uart.finish, Uart.advance, hu.full]
  split
  · next heq => exact iff_of_true rfl heq.symm
  · next hne => exact iff_of_false Bool.false_ne_true fun heq => hne heq.symm

/-- What `uart_write` does once its first byte is on its way. -/
theorem under_finish {data : List UInt8} {cnt : Nat}
    (hu : Good txFifoSz (h.ret (.write data) ⟨cnt, []⟩) (rest data cnt) (u.finish cnt)) :
    Under (Hw (program rxFifoSz txFifoSz fuel))
      (fun r u' => Good txFifoSz (h.ret (.write data) r.1) r.2 u')
      (do
        .write (Uart.advance cnt)
        onHw fun l => l.setCtrlr (l.ctrlr ||| TIE)
        return (⟨cnt, []⟩, rest data cnt)) u := by
  have hfinish : Stable (Hw (program rxFifoSz txFifoSz fuel)) fun u =>
      Good txFifoSz (h.ret (.write data) ⟨cnt, []⟩) (rest data cnt) (u.finish cnt) := by
    refine Hw.stable fun u e hu => ?_
    have hact := hu.act rxFifoSz e
    rwa [← Uart.finish_act] at hact
  have henable : Stable (Hw (program rxFifoSz txFifoSz fuel)) fun u =>
      Good txFifoSz (h.ret (.write data) ⟨cnt, []⟩) (rest data cnt)
        { u with hw := u.hw.setCtrlr (u.hw.ctrlr ||| TIE) } := by
    refine Hw.stable fun u e hu => ?_
    have hact := hu.act rxFifoSz e
    rwa [Lpuart.act_setCtrlr, ← Lpuart.ctrlr_act u.hw e] at hact
  refine hfinish.write hu fun u hu => ?_
  refine henable.write (d := u.advance cnt) hu fun u hu => ?_
  exact (stable_good fuel).pure hu fun _ hu => hu

/-- `uart_write` with the interrupt off. -/
theorem under_write_body (hsz : 0 < txFifoSz) {data : List UInt8}
    (hu : Good txFifoSz h (some (.write data)) u) (hfull : ¬u.Full) :
    Under (Hw (program rxFifoSz txFifoSz fuel))
      (fun r u' => Good txFifoSz (h.ret (.write data) r.1) r.2 u') (body txFifoSz (.write data))
      u := by
  have hstable : Stable (Hw (program rxFifoSz txFifoSz fuel))
      fun u => Good txFifoSz h (some (.write data)) u ∧ ¬u.Full :=
    Hw.stable fun _ e hu => ⟨hu.1.act _ e, hu.2⟩
  refine hstable.access ⟨hu, hfull⟩ fun u hu => ?_
  obtain ⟨hu, hfull⟩ := hu
  have hpos : 0 < data.length := List.length_pos_of_ne_nil (hu.callable _ rfl)
  have hsize : BUFFER_SIZE = 0x200 := rfl
  obtain ⟨rq, hrx⟩ := hu.rx
  rcases hu.tx with hfresh | ⟨pre, tq, htx, htfull⟩
  · have hcopy : u.copyIn data = (ringWrite BUFFER_SIZE u.txBuff u.txTail
        (data.take (min BUFFER_SIZE data.length)), min BUFFER_SIZE data.length) :=
      copyIn_eq (by rw [hfresh.tail]; decide) (by rw [hfresh.head]; decide)
        (Or.inr ⟨by rw [hfresh.head]; exact Nat.zero_le _, by rw [hfresh.head, hfresh.tail]⟩) data
    have hmem : (u.copyIn data).1 =
        ringWrite BUFFER_SIZE (fun _ => 0) 0 (data.take (min BUFFER_SIZE data.length)) := by
      rw [hcopy, hfresh.tail, hfresh.buff]
    have hcnt : (u.copyIn data).2 = min BUFFER_SIZE data.length := congrArg Prod.snd hcopy
    rw [hcnt]
    generalize hn : min BUFFER_SIZE data.length = cnt at hmem
    have hfirst : Stable (Hw (program rxFifoSz txFifoSz fuel)) fun u =>
        First data cnt u ∧ RxHolds h [] rq u :=
      Hw.stable fun _ e hu => ⟨hu.1.act e, hu.2.act e⟩
    have hcopied : First data cnt { u with txBuff := (u.copyIn data).1 } :=
      ⟨hfresh.head, hfresh.tail, hfresh.full, hmem, hfresh.line, hfresh.fifo⟩
    refine hfirst.write ⟨hcopied, hrx.ring, hrx.tail_lt, hrx.received⟩ fun u hu' => ?_
    obtain ⟨hcopied, hrx⟩ := hu'
    have hwritten : written h.calls = data := hfresh.written
    have hdone := hcopied.finish hsz (by omega) (by omega) (by omega) hwritten ⟨cnt, []⟩
    refine under_finish fuel (Good.ret hu.log (by omega) (by omega) ?_ ⟨[], _, hdone⟩)
    have hsent : ((u.start txFifoSz).finish cnt).hw.Received (delivered h.log ++ rq ++ []) := by
      rw [Uart.start, if_pos (hcopied.tail.trans hcopied.head.symm)]
      have hsend : (u.hw.send txFifoSz (u.txBuff u.txHead)).Received _ := hrx.received.send _
      exact ⟨hsend.order, hsend.count⟩
    have hring : ((u.start txFifoSz).finish cnt).rxBuff = u.rxBuff ∧
        ((u.start txFifoSz).finish cnt).rxTail = u.rxTail ∧
        ((u.start txFifoSz).finish cnt).rxHead = u.rxHead := by
      rw [Uart.start, if_pos (hcopied.tail.trans hcopied.head.symm)]
      exact ⟨rfl, rfl, rfl⟩
    obtain ⟨hbuff, htail, hhead⟩ := hring
    refine ⟨rq, ?_, ?_, hsent⟩
    · rw [hbuff, htail, hhead]
      exact hrx.ring
    · rw [htail]
      exact hrx.tail_lt
  · have hne : u.txHead ≠ u.txTail := fun heq =>
      hfull ⟨heq, htfull.mpr (htx.head_eq_tail_iff.mp heq)⟩
    have hroom : tq.length + 1 < BUFFER_SIZE := by
      have := htx.ring.length_lt
      have := mt htx.head_eq_tail_iff.mpr hne
      omega
    have htfull' : u.tFull = false := by
      rw [← Bool.not_eq_true, htfull]
      exact hroom.ne
    have hstop := htx.ring.stop_eq
    have hhead := htx.head_lt
    rw [Nat.add_assoc, mod_ring hhead (by omega)] at hstop
    have hcopy : u.copyIn data = (ringWrite BUFFER_SIZE u.txBuff u.txTail
        (data.take (min (BUFFER_SIZE - 1 - tq.length) data.length)),
          min (BUFFER_SIZE - 1 - tq.length) data.length) :=
      copyIn_eq htx.ring.stop_lt hhead (by split at hstop <;> omega) data
    have hmem := congrArg Prod.fst hcopy
    have hcnt : (u.copyIn data).2 = min (BUFFER_SIZE - 1 - tq.length) data.length :=
      congrArg Prod.snd hcopy
    rw [hcnt]
    generalize hn : min (BUFFER_SIZE - 1 - tq.length) data.length = cnt at hmem
    have hkept : Stable (Hw (program rxFifoSz txFifoSz fuel)) fun u => u.txTail ≠ u.txHead ∧
        Good txFifoSz (h.ret (.write data) ⟨cnt, []⟩) (rest data cnt) (u.finish cnt) := by
      refine Hw.stable fun u e hu => ⟨hu.1, ?_⟩
      have hact := hu.2.act rxFifoSz e
      rwa [← Uart.finish_act] at hact
    have hcnt : cnt ≤ data.length := by omega
    have hdone := htx.finish hcnt (by omega) htfull' ⟨cnt, []⟩
    have hgood : Good txFifoSz (h.ret (.write data) ⟨cnt, []⟩) (rest data cnt)
        (Uart.finish cnt { u with txBuff := (u.copyIn data).1 }) := by
      refine Good.ret hu.log (by omega) (by omega) ⟨rq, hrx.ring, hrx.tail_lt, ?_⟩
        ⟨pre, tq ++ data.take cnt, ?_⟩
      · exact ⟨hrx.received.order, hrx.received.count⟩
      · rw [hmem]
        exact hdone
    refine hkept.write (d := { u with txBuff := (u.copyIn data).1 }) ⟨hne.symm, hgood⟩ fun u hu => ?_
    rw [Uart.start, if_neg hu.1]
    exact under_finish fuel hu.2

theorem under_poll (hsz : 0 < txFifoSz) (op : UartOp) (hu : Good txFifoSz h (some op) u) :
    Under (Rely (Good txFifoSz) Grows h op)
      (After (program rxFifoSz txFifoSz fuel) (Good txFifoSz) h op) (poll op) u := by
  cases op with
  | read len =>
      refine under_read fun u₁ h₁ => ?_
      obtain ⟨hu₁, -⟩ := h₁ hu
      refine under_read fun u₂ h₂ => ?_
      obtain ⟨hu₂, hgrows₂⟩ := h₂ hu₁
      intro u₃ h₃
      obtain ⟨hu₃, hgrows₃⟩ := h₃ hu₂
      split
      · exact hu₃
      · next hne =>
        -- The ring was not empty between the two accesses, and stays so.
        refine under_read_body fuel hu₃ fun hempty => hne ?_
        obtain ⟨hhead₃, htail₃⟩ := hgrows₃.rx hempty
        have hempty₂ : u₂.rxHead = u₂.rxTail := hhead₃.symm.trans (hempty.trans htail₃)
        exact (hgrows₂.rx hempty₂).1.symm.trans hempty₂
  | write data =>
      refine under_read fun u₁ h₁ => ?_
      obtain ⟨hu₁, -⟩ := h₁ hu
      refine under_read fun u₂ h₂ => ?_
      obtain ⟨hu₂, hgrows₂⟩ := h₂ hu₁
      split
      · refine under_read fun u₃ h₃ => ?_
        obtain ⟨hu₃, -⟩ := h₃ hu₂
        intro u₄ h₄
        obtain ⟨hu₄, hgrows₄⟩ := h₄ hu₃
        cases hfull : u₃.tFull with
        | true => exact hu₄
        | false =>
            refine under_write_body fuel hsz hu₄ (hgrows₄.tx fun hboth => ?_)
            exact Bool.false_ne_true (hfull.symm.trans hboth.2)
      · next hne =>
        intro u₃ h₃
        obtain ⟨hu₃, hgrows₃⟩ := h₃ hu₂
        refine under_write_body fuel hsz hu₃ (hgrows₃.tx (hgrows₂.tx fun hboth => hne ?_))
        exact hboth.1.trans hgrows₂.tail.symm

theorem reads_poll (op : UartOp) : Reads (poll op) := by
  cases op with
  | read len => exact reads_read fun head => reads_read fun tail => trivial
  | write data =>
      refine reads_read fun head => reads_read fun tail => ?_
      split
      · exact reads_read fun full => trivial
      · trivial

theorem keeps (hpos : 0 < txFifoSz) (hsz : txFifoSz < 256) :
    Keeps (program rxFifoSz txFifoSz fuel) Callable (Good txFifoSz) Grows where
  refl := .refl
  trans := .trans
  hw e hu := ⟨hu.act _ e, ⟨fun _ => ⟨rfl, rfl⟩, rfl, id⟩⟩
  handler {h o u} hu := by
    have hround : Round txFifoSz h o [] u u := ⟨⟨hu.rx, fun _ => ⟨rfl, rfl⟩, rfl⟩, hu.tx, id⟩
    refine (under_handler fuel hsz hround).mono fun _ u' hu' => ?_
    exact ⟨⟨hu'.mid.rx, hu'.tx, hu.log, hu.callable⟩, hu'.mid.grows, hu'.mid.tail, hu'.full⟩
  call op hop hu := by
    obtain ⟨rq, hrx⟩ := hu.rx
    refine ⟨⟨rq, hrx.ring, hrx.tail_lt, hrx.received⟩, hu.tx.call op, hu.log, ?_⟩
    rintro _ ⟨⟩
    exact hop
  reads := reads_poll
  poll op hu := under_poll fuel hpos op hu
  timeout {h u op r} hr hu := by
    cases op with
    | write data => cases hr
    | read len =>
        cases hr
        obtain ⟨rq, hrx⟩ := hu.rx
        refine ⟨⟨rq, hrx.ring, hrx.tail_lt, ?_⟩, hu.tx.congr rfl rfl,
          fits_ret hu.log (Or.inl rfl), nofun⟩
        rw [delivered_ret_nil]
        exact hrx.received

end Calls

theorem good_init (txFifoSz : Nat) (statr ctrlr : BitVec 32) :
    Good txFifoSz ⟨[], []⟩ none (init statr ctrlr) := by
  have hrx : RxHolds ⟨[], []⟩ [] [] (init statr ctrlr) :=
    ⟨OnRing.nil (by decide) _ 0, (by decide : 0 < BUFFER_SIZE), List.Sublist.refl _, rfl⟩
  exact ⟨⟨[], hrx⟩, Or.inl ⟨rfl, rfl, rfl, rfl, rfl, rfl, rfl⟩, nofun, nofun⟩

/-- In every run of the calls, the handler and the lines, every call that has returned
gave its caller some of the bytes it asked for, took some of those it was given, or timed
out on a read. Whenever neither the handler nor a part with the interrupt off is at
work, the bytes that the reads gave, that are on the ring and in the FIFO are among those
that came in, in that order, and the others are the lost ones; and either no byte of any
call has been taken and nothing was sent, or all bytes of all calls have gone out, are in
the FIFO, on the ring, or still to be written, in that order, behind nothing or behind
a ring full of zeros. -/
theorem serial_after_zeros {rxFifoSz txFifoSz : Nat} (fuel : Nat) (hpos : 0 < txFifoSz)
    (hsz : txFifoSz < 256) (statr ctrlr : BitVec 32) {s : Cpu Uart UartOp UartResult}
    (h : Reachable (Cpu.step (program rxFifoSz txFifoSz fuel))
      (fun _ i => ∀ op, i = .call op → Callable op) (Cpu.init (init statr ctrlr)) s) :
    (∀ e ∈ s.hist.log, e.2.Fits e.1) ∧
      (s.isr = none → (∀ op c, s.fore ≠ .masked op c) →
        (∃ rq, OnRing BUFFER_SIZE s.data.rxBuff s.data.rxTail s.data.rxHead rq ∧
          (delivered s.hist.log ++ rq ++ s.data.hw.rxFifo).Sublist s.data.hw.arrived ∧
          (delivered s.hist.log ++ rq ++ s.data.hw.rxFifo).length + s.data.hw.lost =
            s.data.hw.arrived.length) ∧
        ((s.data.hw.line = [] ∧ s.data.hw.txFifo = [] ∧
            unwritten s.fore.here = written s.hist.calls) ∨
          ∃ pre tq, (pre = [] ∨ pre = zeros) ∧
            OnRing BUFFER_SIZE s.data.txBuff (s.data.txHead + 1) s.data.txTail tq ∧
            s.data.hw.line ++ s.data.hw.txFifo ++ tq ++ unwritten s.fore.here =
              pre ++ written s.hist.calls ∧
            (unwritten s.fore.here = written s.hist.calls ∨
              (tq ≠ [] → s.data.hw.ctrlr &&& TIE ≠ 0)))) := by
  have hinv := (keeps fuel hpos hsz).reachable (good_init txFifoSz statr ctrlr) h
  refine ⟨?_, fun hisr hfore => ?_⟩
  · obtain ⟨u, hu⟩ := hinv.history
    exact hu.log
  · have hu := hinv.outside hisr hfore
    obtain ⟨rq, hrx⟩ := hu.rx
    have hcount := hrx.received.count
    have horder := hrx.received.order
    rw [List.append_nil] at hcount horder
    refine ⟨⟨rq, hrx.ring, horder, by rw [List.length_append]; exact hcount⟩, ?_⟩
    rcases hu.tx with hfresh | ⟨pre, tq, htx, -⟩
    · exact Or.inl ⟨hfresh.line, hfresh.fifo, hfresh.written.symm⟩
    · refine Or.inr ⟨pre, tq, htx.pre, htx.ring, ?_, htx.enabled.imp_left Eq.symm⟩
      rw [← htx.transmits.bytes, List.nil_append, List.append_assoc]

/-- A byte comes in before anything is written. -/
def earlySteps : List (Event UartOp LineEvent) :=
  [.hw (.arrive 7), .irq] ++ List.replicate 16 .handle ++ [.hw .shift, .call (.read 4)] ++
    List.replicate 6 .next

def early : Cpu Uart UartOp UartResult :=
  earlySteps.foldl (Cpu.step (program 2 2 3)) (Cpu.init (init 0 0))

theorem early_isr : early.isr = none := rfl

theorem early_fore : early.fore = .idle := rfl

/-- A zero has gone out although nothing was written. -/
theorem serial_after_zeros_early :
    (delivered early.hist.log = [7] ∧ early.data.hw.line = [0]) ∧
      ∃ pre tq, (pre = [] ∨ pre = zeros) ∧
        early.data.hw.line ++ early.data.hw.txFifo ++ tq ++ unwritten early.fore.here =
          pre ++ written early.hist.calls := by
  have hrun : Reachable (Cpu.step (program 2 2 3)) (fun _ i => ∀ op, i = .call op → Callable op)
      (Cpu.init (init 0 0)) early := by
    refine .foldl .init _ fun i hi _ op hop => ?_
    subst hop
    simp only [earlySteps, List.mem_append, List.mem_cons, List.mem_replicate, reduceCtorEq,
      and_false, or_false, false_or, List.not_mem_nil, Event.call.injEq] at hi
    subst hi
    exact trivial
  obtain ⟨-, houtside⟩ := serial_after_zeros 3 (by decide) (by decide) 0 0 hrun
  obtain ⟨-, hsent⟩ := houtside early_isr fun op c hfore => nomatch early_fore.symm.trans hfore
  have hline : early.data.hw.line = [0] := rfl
  refine ⟨⟨rfl, hline⟩, ?_⟩
  rcases hsent with ⟨hnone, -⟩ | ⟨pre, tq, hpre, -, hbytes, -⟩
  · rw [hline] at hnone
    cases hnone
  · exact ⟨pre, tq, hpre, hbytes⟩

end Plo.Devices.UartImxrt117x
