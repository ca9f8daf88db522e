import Plo.Devices.Lpuart
import Plo.Lib.CbufferFifo

/-!
The serial driver of the i.MX RT 106x: circular buffers between the interrupt handler and
the calls. In every interleaving of calls, interrupts and what happens on the lines, what
is written goes out once and in order, and what comes in is read once and in order,
except for bytes that found a full FIFO or a full buffer.
-/
namespace Plo.Devices.UartImxrt106x
open Plo.Critical (Code)
open Plo.Interrupts Plo.Lib Plo.Lib.Cbuf Plo.Devices.Uart

abbrev BUFFER_SIZE : BitVec 32 := 0x20

structure Uart where
  hw : Lpuart
  cbuffRx : Cbuffer 32
  cbuffTx : Cbuffer 32

def onHw (f : Lpuart → Lpuart) : Code Uart PUnit := .write fun u => { u with hw := f u.hw }

def onTx {α : Type} (f : Cbuffer 32 → Cbuffer 32) (g : Cbuffer 32 → α) : Code Uart α :=
  access (fun u => { u with cbuffTx := f u.cbuffTx }) fun u => g u.cbuffTx

def onRx {α : Type} (f : Cbuffer 32 → Cbuffer 32) (g : Cbuffer 32 → α) : Code Uart α :=
  access (fun u => { u with cbuffRx := f u.cbuffRx }) fun u => g u.cbuffRx

/-- An overrun invalidates the receive FIFO. -/
def flushOverrun (flags : BitVec 32) : Code Uart PUnit :=
  if flags &&& OVERRUN ≠ 0 then onHw Lpuart.flush else pure ⟨⟩

/-- `lib_cbufWriteByte` in the handler, which does not look at what it returns. -/
def keep (c : UInt8) : Code Uart PUnit := .write fun u =>
  let res := writeByte u.cbuffRx c
  { u with cbuffRx := res.1, hw := if res.2 = 0 then u.hw.lose else u.hw }

/-- A round of the receive loop of `uart_handleIntr`, and whether it goes on. -/
def receive : Code Uart Bool := do
  let count ← .read fun u => u.hw.getRXcount
  if count ≠ 0 then
    let c ← access (fun u => { u with hw := u.hw.pop }) fun u => u.hw.front
    keep c
    return true
  else return false

/-- A round of its transmit loop. -/
def transmit (txFifoSz : Nat) : Code Uart Bool := do
  let count ← .read fun u => u.hw.getTXcount
  if count < txFifoSz then
    let res ← onTx (fun buf => (readByte buf).1) fun buf => (readByte buf).2
    if res.1 ≠ 0 then
      onHw (Lpuart.send txFifoSz (res.2.headD 0))
      return true
    else
      onHw fun l => l.setCtrlr (l.ctrlr &&& ~~~TIE)
      return false
  else return false

/-- `uart_handleIntr`, with at most `fuel` rounds of each loop. -/
def handleIntr (txFifoSz fuel : Nat) : Code Uart PUnit := do
  let flags ← .read fun u => u.hw.statr &&& (0xf#32 <<< 16)
  flushOverrun flags
  let statr ← .read fun u => u.hw.statr
  onHw (Lpuart.setStatr (statr ||| flags))
  loop receive fuel
  loop (transmit txFifoSz) fuel

/-- `lib_cbufEmpty` with interrupts on. -/
def cbufEmpty (buf : Uart → Cbuffer 32) : Code Uart Bool := do
  let head ← .read fun u => (buf u).head
  let tail ← .read fun u => (buf u).tail
  if head = tail then
    let full ← .read fun u => (buf u).full
    return !full
  else return false

/-- The loops in front of `uart_read` and `uart_write`. -/
def poll : UartOp → Code Uart (Verdict UartOp UartResult)
  | .read len => do
    let empty ← cbufEmpty Uart.cbuffRx
    return if empty then .goto (.read len) else .enter
  | .write data => do
    let full ← .read fun u => u.cbuffTx.full
    return if full then .goto (.write data) else .enter

/-- `uart_read` and `uart_write` with the interrupt off. After a write `uart_safeWrite`
comes back with the bytes that are left. -/
def body : UartOp → Code Uart (UartResult × Option UartOp)
  | .read len => do
    let res ← onRx (fun buf => (Cbuf.read buf (BitVec.ofNat 32 len)).1)
      fun buf => (Cbuf.read buf (BitVec.ofNat 32 len)).2
    return (⟨res.1.toInt, res.2⟩, none)
  | .write data => do
    let res ← onTx (fun buf => (Cbuf.write buf data).1) fun buf => (Cbuf.write buf data).2
    onHw fun l => l.setCtrlr (l.ctrlr ||| TIE)
    let rest := data.drop res.toNat
    return (⟨res.toInt, []⟩, if rest = [] then none else some (.write rest))

def program (rxFifoSz txFifoSz fuel : Nat) : Program Uart UartOp UartResult LineEvent where
  poll := poll
  body := body
  timeout
    | .read _ => some ⟨-ETIME, []⟩
    | .write _ => none
  handler := handleIntr txFifoSz fuel
  hw e u := { u with hw := u.hw.act rxFifoSz e }

/-- After `uart_init`. -/
def init (rxData txData : Nat → UInt8) (statr ctrlr : BitVec 32) : Uart :=
  ⟨.init statr ctrlr, Cbuf.init rxData BUFFER_SIZE, Cbuf.init txData BUFFER_SIZE⟩

/-- The sizes the calls may have; nothing is called to write no bytes. -/
def Callable : UartOp → Prop
  | .read len => len < 2 ^ 31
  | .write data => data ≠ [] ∧ data.length < 2 ^ 31

/-- The buffers hold `rq` and `tq`; the handler is about to put `rx` into the one and has
taken `tx` from the other. -/
structure Holds (txFifoSz : Nat) (h : History UartOp UartResult) (here : Option UartOp)
    (rx tx rq tq : List UInt8) (u : Uart) : Prop where
  rxStores : Stores u.cbuffRx rq
  txStores : Stores u.cbuffTx tq
  rxCapacity : u.cbuffRx.capacity = BUFFER_SIZE
  txCapacity : u.cbuffTx.capacity = BUFFER_SIZE
  received : u.hw.Received (delivered h.log ++ rq ++ rx)
  transmits : u.hw.Transmits txFifoSz (tx ++ tq ++ unwritten here) (written h.calls)
  enabled : tq ≠ [] → u.hw.ctrlr &&& TIE ≠ 0
  log : ∀ e ∈ h.log, e.2.Fits e.1
  callable : ∀ op ∈ here, Callable op

def Good (txFifoSz : Nat) (h : History UartOp UartResult) (here : Option UartOp) (u : Uart) : Prop :=
  ∃ rq tq, Holds txFifoSz h here [] [] rq tq u

/-- What the handler does to the buffers, as far as a poll can rely on it. -/
structure Grows (u u' : Uart) : Prop where
  head : u'.cbuffRx.head = u.cbuffRx.head
  rx : Cbuf.empty u.cbuffRx = false → Cbuf.empty u'.cbuffRx = false
  tx : u.cbuffTx.full = false → u'.cbuffTx.full = false

theorem Grows.refl (u : Uart) : Grows u u := ⟨rfl, id, id⟩

theorem Grows.trans {u₁ u₂ u₃ : Uart} (h₁ : Grows u₁ u₂) (h₂ : Grows u₂ u₃) : Grows u₁ u₃ :=
  ⟨h₂.head.trans h₁.head, h₂.rx ∘ h₁.rx, h₂.tx ∘ h₁.tx⟩

section Buffers
variable {buf : Cbuffer 32} {q : List UInt8}

theorem capacity_eq (hcap : buf.capacity = BUFFER_SIZE) : buf.capacity.toNat = 32 := by
  rw [hcap]
  decide

theorem capacity_le (hcap : buf.capacity = BUFFER_SIZE) : buf.capacity.toNat ≤ 2 ^ (32 - 1) := by
  rw [capacity_eq hcap]
  decide

theorem empty_eq_false_iff (h : Stores buf q) : Cbuf.empty buf = false ↔ q ≠ [] := by
  have hempty := empty_iff h
  rw [List.length_eq_zero_iff] at hempty
  rw [ne_eq, ← hempty, Cbuf.empty]
  simp

theorem head_writeByte (buf : Cbuffer 32) (c : UInt8) : (writeByte buf c).1.head = buf.head := by
  simp only [writeByte]
  split <;> rfl

theorem full_readByte (buf : Cbuffer 32) (h : buf.full = false) : (readByte buf).1.full = false := by
  simp only [readByte]
  split
  · exact h
  · rfl

end Buffers

section Handler
variable {rxFifoSz txFifoSz : Nat} {h : History UartOp UartResult} {here : Option UartOp}
  {rx tx rq tq : List UInt8} {u u₀ : Uart} {c : UInt8}

theorem Holds.act (hu : Holds txFifoSz h here rx tx rq tq u) (e : LineEvent) :
    Holds txFifoSz h here rx tx rq tq { u with hw := u.hw.act rxFifoSz e } :=
  { hu with
    received := hu.received.act e
    transmits := hu.transmits.act e
    enabled := fun hne => by
      rw [Lpuart.ctrlr_act]
      exact hu.enabled hne }

/-- Inside the handler. -/
def Mid (txFifoSz : Nat) (h : History UartOp UartResult) (here : Option UartOp) (u₀ : Uart)
    (rx tx : List UInt8) (u : Uart) : Prop :=
  (∃ rq tq, Holds txFifoSz h here rx tx rq tq u) ∧ Grows u₀ u

theorem Mid.act (hu : Mid txFifoSz h here u₀ rx tx u) (e : LineEvent) :
    Mid txFifoSz h here u₀ rx tx { u with hw := u.hw.act rxFifoSz e } := by
  obtain ⟨⟨rq, tq, hu⟩, hgrows⟩ := hu
  exact ⟨⟨rq, tq, hu.act e⟩, hgrows.head, hgrows.rx, hgrows.tx⟩

variable (fuel : Nat)

theorem stable_mid : Stable (Hw (program rxFifoSz txFifoSz fuel)) (Mid txFifoSz h here u₀ rx tx) :=
  Hw.stable fun _ e hu => hu.act e

/-- A received byte is put into the buffer, or thrown away if that is full. -/
theorem Mid.keep (hu : Mid txFifoSz h here u₀ [c] [] u) :
    Mid txFifoSz h here u₀ [] []
      { u with
        cbuffRx := (writeByte u.cbuffRx c).1
        hw := if (writeByte u.cbuffRx c).2 = 0 then u.hw.lose else u.hw } := by
  obtain ⟨⟨rq, tq, hu⟩, hgrows⟩ := hu
  obtain ⟨hstores, hreply⟩ :=
    run_stores (by decide) hu.rxStores (capacity_le hu.rxCapacity) (.writeByte c) trivial
  have hcap := capacity_eq hu.rxCapacity
  have hsize := hu.rxStores.size_le
  have hbytes := congrArg Reply.bytes hreply
  simp only [Op.run, Op.queue, enqueue, List.length_singleton, hcap] at hstores hbytes
  refine ⟨⟨rq ++ [c].take (min 1 (32 - rq.length)), tq, ?_⟩, ?_⟩
  · refine { hu with rxStores := hstores, rxCapacity := ?_, received := ?_, transmits := ?_,
                     enabled := ?_ }
    · exact (run_capacity u.cbuffRx (.writeByte c)).trans hu.rxCapacity
    · by_cases hfull : rq.length = 32
      · have hzero : (writeByte u.cbuffRx c).2 = 0 := by
          rw [← BitVec.toNat_inj, hbytes, hfull]
          rfl
        rw [if_pos hzero, hfull, Nat.sub_self, Nat.min_zero, List.take_zero, List.append_nil,
          List.append_nil]
        refine hu.received.lose (List.sublist_append_left _ _) ?_
        rw [List.length_append, List.length_singleton]
      · have hroom : min 1 (32 - rq.length) = 1 := by omega
        have hone : (writeByte u.cbuffRx c).2 ≠ 0 := by
          intro hzero
          rw [hzero, hroom] at hbytes
          exact absurd hbytes (by decide)
        rw [if_neg hone, hroom, List.append_nil, List.take_one, ← List.append_assoc]
        exact hu.received
    · split <;> exact ⟨hu.transmits.bytes, hu.transmits.room⟩
    · split <;> exact hu.enabled
  · refine ⟨(head_writeByte u.cbuffRx c).trans hgrows.head, fun _ => ?_, hgrows.tx⟩
    rw [empty_eq_false_iff hstores]
    intro hnil
    have hlen := congrArg List.length hnil
    simp only [List.length_append, List.length_take, List.length_singleton, List.length_nil] at hlen
    omega

/-- A round of the receive loop. -/
theorem under_receive (hu : Mid txFifoSz h here u₀ [] [] u) :
    Under (Hw (program rxFifoSz txFifoSz fuel)) (fun _ u' => Mid txFifoSz h here u₀ [] [] u')
      receive u := by
  refine (stable_mid fuel).read hu fun u hu => ?_
  split
  · next hcount =>
    have hfifo : u.hw.rxFifo ≠ [] := by
      intro hnil
      rw [Lpuart.getRXcount_eq, hnil] at hcount
      exact hcount rfl
    have hstable : Stable (Hw (program rxFifoSz txFifoSz fuel))
        fun u => Mid txFifoSz h here u₀ [] [] u ∧ u.hw.rxFifo ≠ [] :=
      Hw.stable fun _ e hu => ⟨hu.1.act e, Lpuart.rxFifo_act hu.2 e⟩
    refine hstable.access ⟨hu, hfifo⟩ fun u hu => ?_
    obtain ⟨⟨⟨rq, tq, hu⟩, hgrows⟩, hfifo⟩ := hu
    have hpop : Mid txFifoSz h here u₀ [u.hw.front] [] { u with hw := u.hw.pop } := by
      have hpop := hu.received.pop hfifo
      rw [List.append_nil] at hpop
      exact ⟨⟨rq, tq, { hu with
        received := hpop
        transmits := ⟨hu.transmits.bytes, hu.transmits.room⟩ }⟩, hgrows.head, hgrows.rx, hgrows.tx⟩
    refine (stable_mid fuel).write hpop fun u hu => ?_
    exact (stable_mid fuel).pure hu.keep fun _ hu => hu
  · exact (stable_mid fuel).pure hu fun _ hu => hu

/-- A round of the transmit loop. -/
theorem under_transmit (hsz : txFifoSz < 256) (hu : Mid txFifoSz h here u₀ [] [] u) :
    Under (Hw (program rxFifoSz txFifoSz fuel)) (fun _ u' => Mid txFifoSz h here u₀ [] [] u')
      (transmit txFifoSz) u := by
  refine (stable_mid fuel).read hu fun u hu => ?_
  split
  · next hcount =>
    have hroom : u.hw.txFifo.length < txFifoSz := by
      obtain ⟨⟨rq, tq, hu⟩, -⟩ := hu
      have hle := hu.transmits.room
      rwa [Lpuart.getTXcount_eq, Nat.mod_eq_of_lt (by omega)] at hcount
    have hstable : ∀ tx, Stable (Hw (program rxFifoSz txFifoSz fuel))
        fun u => Mid txFifoSz h here u₀ [] tx u ∧ u.hw.txFifo.length < txFifoSz :=
      fun tx => Hw.stable fun _ e hu => ⟨hu.1.act e, Lpuart.room_act hu.2 e⟩
    refine (hstable []).access ⟨hu, hroom⟩ fun u hu => ?_
    obtain ⟨⟨⟨rq, tq, hu⟩, hgrows⟩, hroom⟩ := hu
    obtain ⟨hstores, hreply⟩ :=
      run_stores (by decide) hu.txStores (capacity_le hu.txCapacity) .readByte trivial
    have hbytes := congrArg Reply.bytes hreply
    have hdata := congrArg Reply.data hreply
    simp only [Op.run, Op.queue, dequeue] at hstores hbytes hdata
    have hcap := (run_capacity u.cbuffTx .readByte).trans hu.txCapacity
    have hgrows' : Grows u₀ { u with cbuffTx := (readByte u.cbuffTx).1 } :=
      ⟨hgrows.head, hgrows.rx, fun hfull => full_readByte u.cbuffTx (hgrows.tx hfull)⟩
    cases tq with
    | nil =>
        have hzero : (readByte u.cbuffTx).2.1 = 0 := by
          rw [← BitVec.toNat_inj, hbytes]
          rfl
        rw [if_neg (not_not.mpr hzero)]
        have hu' : Holds txFifoSz h here [] [] rq [] { u with cbuffTx := (readByte u.cbuffTx).1 } :=
          { hu with txStores := hstores, txCapacity := hcap }
        have hempty : Stable (Hw (program rxFifoSz txFifoSz fuel))
            fun u => Holds txFifoSz h here [] [] rq [] u ∧ Grows u₀ u :=
          Hw.stable fun _ e hu => ⟨hu.1.act e, hu.2.head, hu.2.rx, hu.2.tx⟩
        refine hempty.write ⟨hu', hgrows'⟩ fun u hu => ?_
        obtain ⟨hu, hgrows⟩ := hu
        have hdone : Holds txFifoSz h here [] [] rq []
            { u with hw := u.hw.setCtrlr (u.hw.ctrlr &&& ~~~TIE) } :=
          { hu with
            received := ⟨hu.received.order, hu.received.count⟩
            transmits := ⟨hu.transmits.bytes, hu.transmits.room⟩
            enabled := fun hne => absurd rfl hne }
        exact (stable_mid fuel).pure ⟨⟨rq, [], hdone⟩, hgrows.head, hgrows.rx, hgrows.tx⟩
          fun _ hu => hu
    | cons c tq =>
        have hone : (readByte u.cbuffTx).2.1 ≠ 0 := by
          intro hzero
          rw [hzero, List.length_cons, Nat.min_eq_left (by omega)] at hbytes
          exact absurd hbytes (by decide)
        rw [if_pos hone, hdata]
        have hu' : Holds txFifoSz h here [] [c] rq tq { u with cbuffTx := (readByte u.cbuffTx).1 } :=
          { hu with
            txStores := hstores
            txCapacity := hcap
            enabled := fun _ => hu.enabled (List.cons_ne_nil c tq) }
        refine (hstable [c]).write ⟨⟨⟨rq, tq, hu'⟩, hgrows'⟩, hroom⟩ fun u hu => ?_
        obtain ⟨⟨⟨rq, tq, hu⟩, hgrows⟩, hroom⟩ := hu
        have hdone : Holds txFifoSz h here [] [] rq tq { u with hw := u.hw.send txFifoSz c } :=
          { hu with
            received := hu.received.send c
            transmits := hu.transmits.send hroom
            enabled := fun hne => by
              rw [Lpuart.ctrlr_send]
              exact hu.enabled hne }
        exact (stable_mid fuel).pure ⟨⟨rq, tq, hdone⟩, hgrows.head, hgrows.rx, hgrows.tx⟩
          fun _ hu => hu
  · exact (stable_mid fuel).pure hu fun _ hu => hu

theorem under_flushOverrun (flags : BitVec 32) (hu : Mid txFifoSz h here u₀ [] [] u) :
    Under (Hw (program rxFifoSz txFifoSz fuel)) (fun _ u' => Mid txFifoSz h here u₀ [] [] u')
      (flushOverrun flags) u := by
  rw [flushOverrun]
  split
  · refine (stable_mid fuel).last hu (stable_mid fuel) fun u hu => ?_
    obtain ⟨⟨rq, tq, hu⟩, hgrows⟩ := hu
    exact ⟨⟨rq, tq, { hu with
      received := hu.received.flush
      transmits := ⟨hu.transmits.bytes, hu.transmits.room⟩ }⟩, hgrows.head, hgrows.rx, hgrows.tx⟩
  · exact (stable_mid fuel).pure hu fun _ hu => hu

/-- The handler keeps what the buffers and the lines hold together. -/
theorem under_handler (hsz : txFifoSz < 256) (hu : Mid txFifoSz h here u₀ [] [] u) :
    Under (Hw (program rxFifoSz txFifoSz fuel)) (fun _ u' => Mid txFifoSz h here u₀ [] [] u')
      (handleIntr txFifoSz fuel) u := by
  have hrefl : ∀ d, Hw (program rxFifoSz txFifoSz fuel) d d := fun _ => .refl
  refine (stable_mid fuel).read hu fun u hu => ?_
  refine under_bind hrefl ((under_flushOverrun fuel _ hu).mono fun _ u hu => ?_)
  refine (stable_mid fuel).read hu fun u hu => ?_
  refine (stable_mid fuel).write hu fun u hu => ?_
  obtain ⟨⟨rq, tq, hu⟩, hgrows⟩ := hu
  have hcleared : ∀ v, Mid txFifoSz h here u₀ [] [] { u with hw := u.hw.setStatr v } := fun v =>
    ⟨⟨rq, tq, { hu with
      received := ⟨hu.received.order, hu.received.count⟩
      transmits := ⟨hu.transmits.bytes, hu.transmits.room⟩ }⟩, hgrows.head, hgrows.rx, hgrows.tx⟩
  refine under_bind hrefl
    (Under.mono (Q := fun _ u => Mid txFifoSz h here u₀ [] [] u) ?_ fun _ u hu => ?_)
  · exact (stable_mid fuel).loop (hcleared _) hrefl (fun u hu => under_receive fuel hu) fuel
  · exact (stable_mid fuel).loop hu hrefl (fun u hu => under_transmit fuel hsz hu) fuel

end Handler

section Calls
variable {rxFifoSz txFifoSz : Nat} {h : History UartOp UartResult} {here : Option UartOp} {u : Uart}
  (fuel : Nat)

theorem Good.act (rxFifoSz : Nat) (hu : Good txFifoSz h here u) (e : LineEvent) :
    Good txFifoSz h here { u with hw := u.hw.act rxFifoSz e } := by
  obtain ⟨rq, tq, hu⟩ := hu
  exact ⟨rq, tq, hu.act e⟩

theorem stable_good : Stable (Hw (program rxFifoSz txFifoSz fuel)) (Good txFifoSz h here) :=
  Hw.stable fun _ e hu => hu.act _ e

/-- `uart_read` with the interrupt off. -/
theorem under_read_body {len : Nat} (hu : Good txFifoSz h (some (.read len)) u)
    (hempty : Cbuf.empty u.cbuffRx = false) :
    Under (Hw (program rxFifoSz txFifoSz fuel))
      (fun r u' => Good txFifoSz (h.ret (.read len) r.1) r.2 u') (body (.read len)) u := by
  have hstable : Stable (Hw (program rxFifoSz txFifoSz fuel))
      fun u => Good txFifoSz h (some (.read len)) u ∧ Cbuf.empty u.cbuffRx = false :=
    Hw.stable fun _ e hu => ⟨hu.1.act _ e, hu.2⟩
  refine hstable.access ⟨hu, hempty⟩ fun u hu => ?_
  obtain ⟨⟨rq, tq, hu⟩, hempty⟩ := hu
  have hlen : (BitVec.ofNat 32 len).toNat = len := by
    have hlt : len < 2 ^ 31 := hu.callable _ rfl
    rw [BitVec.toNat_ofNat, Nat.mod_eq_of_lt (by omega)]
  have hne := (empty_eq_false_iff hu.rxStores).mp hempty
  have hsmall : (Op.read (BitVec.ofNat 32 len)).Small := by
    simp only [Op.Small, hlen]
    exact hu.callable _ rfl
  obtain ⟨hstores, hreply⟩ :=
    run_stores (by decide) hu.rxStores (capacity_le hu.rxCapacity) _ hsmall
  have hcap := (run_capacity u.cbuffRx (.read (BitVec.ofNat 32 len))).trans hu.rxCapacity
  have hbytes := congrArg Reply.bytes hreply
  have hdata := congrArg Reply.data hreply
  simp only [Op.run, Op.queue, dequeue, hlen] at hstores hbytes hdata
  have hret : ((Cbuf.read u.cbuffRx (BitVec.ofNat 32 len)).2.1).toInt = (min len rq.length : Nat) := by
    have hsize := hu.rxStores.size_le
    rw [capacity_eq hu.rxCapacity] at hsize
    rw [BitVec.toInt_eq_toNat_of_lt (by rw [hbytes]; omega), hbytes]
  refine (stable_good fuel).pure ⟨rq.drop len, tq, ?_⟩ fun _ hu => hu
  refine { hu with rxStores := hstores, rxCapacity := hcap, received := ?_, log := ?_,
                   callable := fun _ hop => absurd hop (Option.not_mem_none _) }
  · have hreceived := hu.received
    rw [List.append_nil] at hreceived
    rwa [History.ret, delivered_append, List.append_nil, hdata, List.append_assoc,
      List.take_append_drop]
  · refine fits_ret hu.log (Or.inr ⟨?_, ?_, fun hpos => ?_⟩)
    · rw [hret, hdata, List.length_take]
    · rw [hdata, List.length_take]
      exact Nat.min_le_left _ _
    · rw [hdata]
      exact fun hnil => (List.take_eq_nil_iff.mp hnil).elim (by omega) hne

/-- `uart_write` with the interrupt off. -/
theorem under_write_body {data : List UInt8} (hu : Good txFifoSz h (some (.write data)) u)
    (hfull : u.cbuffTx.full = false) :
    Under (Hw (program rxFifoSz txFifoSz fuel))
      (fun r u' => Good txFifoSz (h.ret (.write data) r.1) r.2 u') (body (.write data)) u := by
  have hstable : Stable (Hw (program rxFifoSz txFifoSz fuel))
      fun u => Good txFifoSz h (some (.write data)) u ∧ u.cbuffTx.full = false :=
    Hw.stable fun _ e hu => ⟨hu.1.act _ e, hu.2⟩
  refine hstable.access ⟨hu, hfull⟩ fun u hu => ?_
  obtain ⟨⟨rq, tq, hu⟩, hfull⟩ := hu
  obtain ⟨hdata, hsmall⟩ := hu.callable _ rfl
  obtain ⟨hstores, hreply⟩ :=
    run_stores (by decide) hu.txStores (capacity_le hu.txCapacity) (.write data) hsmall
  have hcap := (run_capacity u.cbuffTx (.write data)).trans hu.txCapacity
  have hcap' := capacity_eq hu.txCapacity
  have hroom : tq.length < 32 := by
    have hsize := hu.txStores.size_le
    have hne : tq.length ≠ u.cbuffTx.capacity.toNat := fun heq => by
      rw [hu.txStores.full_iff.mpr heq] at hfull
      cases hfull
    omega
  have hpos := List.length_pos_of_ne_nil hdata
  have hres := congrArg Reply.bytes hreply
  simp only [Op.run, Op.queue, enqueue, hcap'] at hstores hres
  generalize hn : min data.length (32 - tq.length) = n at hstores hres
  have hret : ((Cbuf.write u.cbuffTx data).2).toInt = n := by
    rw [BitVec.toInt_eq_toNat_of_lt (by rw [hres]; omega), hres]
  -- The buffer has the bytes already, the transmit interrupt is enabled next.
  have hnext : Stable (Hw (program rxFifoSz txFifoSz fuel)) fun u =>
      Good txFifoSz (h.ret (.write data) ⟨n, []⟩)
        (if data.drop n = [] then none else some (.write (data.drop n)))
        { u with hw := u.hw.setCtrlr (u.hw.ctrlr ||| TIE) } := by
    refine Hw.stable fun u e hu => ?_
    have hact := hu.act rxFifoSz e
    rw [Lpuart.act_setCtrlr, ← Lpuart.ctrlr_act u.hw e] at hact
    exact hact
  refine hnext.write ⟨rq, tq ++ data.take n, ?_⟩ fun u hu => ?_
  · refine { hu with txStores := hstores, txCapacity := hcap, transmits := ?_, enabled := ?_,
                     received := ?_, log := ?_, callable := ?_ }
    · rw [delivered_ret_nil]
      exact ⟨hu.received.order, hu.received.count⟩
    · have hrest : unwritten (if data.drop n = [] then none else some (.write (data.drop n))) =
          data.drop n := by
        split
        · next hnil => exact hnil.symm
        · rfl
      have hpending : [] ++ (tq ++ data.take n) ++ data.drop n = [] ++ tq ++ data := by
        rw [List.nil_append, List.nil_append, List.append_assoc, List.take_append_drop]
      rw [hrest, hpending]
      exact ⟨hu.transmits.bytes, hu.transmits.room⟩
    · exact fun _ => Lpuart.enabled_or u.hw.ctrlr
    · refine fits_ret hu.log ⟨?_, ?_, rfl⟩ <;> simp only <;> omega
    · intro op hop
      split at hop
      · cases hop
      · next hne =>
        cases hop
        refine ⟨hne, ?_⟩
        rw [List.length_drop]
        omega
  · rw [hres, hret]
    exact (stable_good fuel).pure hu fun _ hu => hu

/-- `lib_cbufEmpty` with interrupts on: if it says that there are bytes, there are. -/
theorem under_cbufEmpty {op : UartOp} (hu : Good txFifoSz h (some op) u) :
    Under (Rely (Good txFifoSz) Grows h op)
      (fun empty u' => Good txFifoSz h (some op) u' ∧ (empty = false → Cbuf.empty u'.cbuffRx = false))
      (cbufEmpty Uart.cbuffRx) u := by
  refine under_read fun u₁ h₁ => ?_
  obtain ⟨hu₁, -⟩ := h₁ hu
  refine under_read fun u₂ h₂ => ?_
  obtain ⟨hu₂, hgrows₂⟩ := h₂ hu₁
  split
  · refine under_read fun u₃ h₃ => ?_
    obtain ⟨hu₃, -⟩ := h₃ hu₂
    intro u₄ h₄
    obtain ⟨hu₄, hgrows₄⟩ := h₄ hu₃
    refine ⟨hu₄, fun hfull => hgrows₄.rx ?_⟩
    rw [Cbuf.empty, hfull, Bool.and_false]
  · next hne =>
    intro u₃ h₃
    obtain ⟨hu₃, hgrows₃⟩ := h₃ hu₂
    refine ⟨hu₃, fun _ => hgrows₃.rx ?_⟩
    rw [← hgrows₂.head] at hne
    rw [Cbuf.empty, beq_eq_false_iff_ne.mpr hne, Bool.false_and]

theorem under_poll (op : UartOp) (hu : Good txFifoSz h (some op) u) :
    Under (Rely (Good txFifoSz) Grows h op)
      (After (program rxFifoSz txFifoSz fuel) (Good txFifoSz) h op) (poll op) u := by
  have hrefl : ∀ d, Rely (Good txFifoSz) Grows h op d d := fun d hd => ⟨hd, .refl d⟩
  cases op with
  | read len =>
      refine under_bind hrefl ((under_cbufEmpty hu).mono fun empty u hu => ?_)
      intro u' hrely
      obtain ⟨hu', hgrows⟩ := hrely hu.1
      cases empty with
      | true => exact hu'
      | false => exact under_read_body fuel hu' (hgrows.rx (hu.2 rfl))
  | write data =>
      refine under_read fun u₁ h₁ => ?_
      obtain ⟨hu₁, -⟩ := h₁ hu
      intro u₂ h₂
      obtain ⟨hu₂, hgrows⟩ := h₂ hu₁
      cases hfull : u₁.cbuffTx.full with
      | true => exact hu₂
      | false => exact under_write_body fuel hu₂ (hgrows.tx hfull)

theorem reads_poll (op : UartOp) : Reads (poll op) := by
  cases op with
  | read len =>
      refine reads_bind (reads_read fun head => reads_read fun tail => ?_) fun _ => trivial
      split
      · exact reads_read fun full => trivial
      · trivial
  | write data => exact reads_read fun full => trivial

theorem keeps (hsz : txFifoSz < 256) :
    Keeps (program rxFifoSz txFifoSz fuel) Callable (Good txFifoSz) Grows where
  refl := .refl
  trans := .trans
  hw e hu := ⟨hu.act _ e, rfl, id, id⟩
  handler hu := under_handler fuel hsz ⟨hu, .refl _⟩
  call := by
    rintro h u op hop ⟨rq, tq, hu⟩
    refine ⟨rq, tq, { hu with transmits := ⟨?_, hu.transmits.room⟩, callable := ?_ }⟩
    · have hbytes := hu.transmits.bytes
      rw [History.call, written_append, ← hbytes]
      simp
    · rintro _ ⟨⟩
      exact hop
  reads := reads_poll
  poll op hu := under_poll fuel op hu
  timeout := by
    rintro h u op r hr ⟨rq, tq, hu⟩
    cases op with
    | write data => cases hr
    | read len =>
        cases hr
        refine ⟨rq, tq, { hu with
          received := ?_
          log := fits_ret hu.log (Or.inl rfl)
          callable := nofun }⟩
        rw [delivered_ret_nil]
        exact hu.received

end Calls

theorem good_init (txFifoSz : Nat) (rxData txData : Nat → UInt8) (statr ctrlr : BitVec 32) :
    Good txFifoSz ⟨[], []⟩ none (init rxData txData statr ctrlr) :=
  ⟨[], [],
    { rxStores := stores_init rxData (by decide)
      txStores := stores_init txData (by decide)
      rxCapacity := rfl
      txCapacity := rfl
      received := ⟨List.Sublist.refl _, rfl⟩
      transmits := ⟨rfl, Nat.zero_le _⟩
      enabled := fun hne => absurd rfl hne
      log := nofun
      callable := nofun }⟩

/-- In every run of the calls, the handler and the lines, every call that has returned
gave its caller some of the bytes it asked for, took some of those it was given, or timed
out on a read. Whenever neither the handler nor a part with the interrupt off is at
work, all bytes of all calls have gone out, are in the FIFO, in the buffer, or still to be
written, in that order; the bytes that the reads gave, that are in the buffer and in the
FIFO are among those that came in, in that order, and the others are the lost ones; and
the transmit interrupt is on as long as the buffer has bytes. -/
theorem serial_in_order {rxFifoSz txFifoSz : Nat} (fuel : Nat) (hsz : txFifoSz < 256)
    (rxData txData : Nat → UInt8) (statr ctrlr : BitVec 32) {s : Cpu Uart UartOp UartResult}
    (h : Reachable (Cpu.step (program rxFifoSz txFifoSz fuel))
      (fun _ i => ∀ op, i = .call op → Callable op) (Cpu.init (init rxData txData statr ctrlr)) s) :
    (∀ e ∈ s.hist.log, e.2.Fits e.1) ∧
      (s.isr = none → (∀ op c, s.fore ≠ .masked op c) →
        ∃ rq tq, Stores s.data.cbuffRx rq ∧ Stores s.data.cbuffTx tq ∧
          s.data.hw.line ++ s.data.hw.txFifo ++ tq ++ unwritten s.fore.here = written s.hist.calls ∧
          (delivered s.hist.log ++ rq ++ s.data.hw.rxFifo).Sublist s.data.hw.arrived ∧
          (delivered s.hist.log ++ rq ++ s.data.hw.rxFifo).length + s.data.hw.lost =
            s.data.hw.arrived.length ∧
          (tq ≠ [] → s.data.hw.ctrlr &&& TIE ≠ 0)) := by
  have hinv := (keeps fuel hsz).reachable (good_init txFifoSz rxData txData statr ctrlr) h
  refine ⟨?_, fun hisr hfore => ?_⟩
  · obtain ⟨u, rq, tq, hu⟩ := hinv.history
    exact hu.log
  · obtain ⟨rq, tq, hu⟩ := hinv.outside hisr hfore
    have hcount := hu.received.count
    have horder := hu.received.order
    rw [List.append_nil] at hcount horder
    refine ⟨rq, tq, hu.rxStores, hu.txStores, ?_, horder, ?_, hu.enabled⟩
    · rw [← hu.transmits.bytes, List.nil_append, List.append_assoc]
    · rw [List.length_append]
      exact hcount

/-- A byte is written and goes out, while another comes in and is read. -/
def echoSteps : List (Event UartOp LineEvent) :=
  [.call (.write [65]), .next, .hw (.arrive 66), .irq] ++ List.replicate 12 .handle ++
    List.replicate 4 .next ++ [.irq] ++ List.replicate 12 .handle ++ [.hw .shift, .call (.read 4)] ++
    List.replicate 6 .next

def echo : Cpu Uart UartOp UartResult :=
  echoSteps.foldl (Cpu.step (program 4 4 3)) (Cpu.init (init (fun _ => 0) (fun _ => 0) 0 0))

theorem echo_isr : echo.isr = none := rfl

theorem echo_fore : echo.fore = .idle := rfl

theorem serial_in_order_echo :
    ∃ rq tq, Stores echo.data.cbuffRx rq ∧ Stores echo.data.cbuffTx tq ∧
      echo.data.hw.line ++ echo.data.hw.txFifo ++ tq ++ unwritten echo.fore.here = [65] ∧
      ([66] ++ rq ++ echo.data.hw.rxFifo).Sublist [66] := by
  have hrun : Reachable (Cpu.step (program 4 4 3)) (fun _ i => ∀ op, i = .call op → Callable op)
      (Cpu.init (init (fun _ => 0) (fun _ => 0) 0 0)) echo := by
    refine .foldl .init _ fun i hi _ op hop => ?_
    subst hop
    simp only [echoSteps, List.mem_append, List.mem_cons, List.mem_replicate, reduceCtorEq,
      and_false, or_false, false_or, List.not_mem_nil, Event.call.injEq] at hi
    rcases hi with rfl | rfl
    · exact ⟨by decide, by decide⟩
    · exact (by decide : 4 < 2 ^ 31)
  obtain ⟨-, houtside⟩ := serial_in_order 3 (by decide) _ _ 0 0 hrun
  obtain ⟨rq, tq, hrx, htx, hbytes, horder, -⟩ :=
    houtside echo_isr fun op c hfore => nomatch echo_fore.symm.trans hfore
  exact ⟨rq, tq, hrx, htx, hbytes, horder⟩

end Plo.Devices.UartImxrt106x
