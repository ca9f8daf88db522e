import Plo.Base.Ring
import Plo.Devices.Lpuart

/-!
The serial driver of the i.MX RT 117x, which the MCX N94x has too. It has rings of its
own: `txHead` is the place of the byte sent last, `rxTail` that of the oldest byte
received, and a full ring for receiving drops its oldest byte. At the start `txHead` and
`txTail` are the same although nothing has been sent.
-/
namespace Plo.Devices.UartImxrt117x
open Plo.Critical (Code)
open Plo.Interrupts Plo.Devices.Uart

abbrev BUFFER_SIZE : Nat := 0x200

structure Uart where
  hw : Lpuart
  rxBuff : Nat → UInt8
  rxHead : Nat
  rxTail : Nat
  txBuff : Nat → UInt8
  txHead : Nat
  txTail : Nat
  tFull : Bool

def onHw (f : Lpuart → Lpuart) : Code Uart PUnit := .write fun u => { u with hw := f u.hw }

/-- A received byte goes to `rxHead`; when the ring was full its oldest byte is dropped. -/
def Uart.keep (c : UInt8) (u : Uart) : Uart :=
  let rxHead := (u.rxHead + 1) % BUFFER_SIZE
  { u with
    rxBuff := overlay u.rxBuff u.rxHead [c]
    rxHead := rxHead
    rxTail := if rxHead = u.rxTail then (u.rxTail + 1) % BUFFER_SIZE else u.rxTail
    hw := if rxHead = u.rxTail then u.hw.lose else u.hw }

/-- A round of the receive loop of `uart_handleIntr`, and whether it goes on. -/
def receive : Code Uart Bool := do
  let count ← .read fun u => u.hw.getRXcount
  if count ≠ 0 then
    let c ← access (fun u => { u with hw := u.hw.pop }) fun u => u.hw.front
    .write (Uart.keep c)
    return true
  else return false

/-- A round of its transmit loop. -/
def transmit (txFifoSz : Nat) : Code Uart Bool := do
  let count ← .read fun u => u.hw.getTXcount
  if count < txFifoSz then
    let last ← .read fun u => decide ((u.txHead + 1) % BUFFER_SIZE = u.txTail)
    if last then
      onHw fun l => l.setCtrlr (l.ctrlr &&& ~~~TIE)
      return false
    else
      .write fun u => { u with txHead := (u.txHead + 1) % BUFFER_SIZE }
      .write fun u => { u with hw := u.hw.send txFifoSz (u.txBuff u.txHead) }
      .write fun u => { u with tFull := false }
      return true
  else return false

/-- `uart_handleIntr`, with at most `fuel` rounds of each loop. -/
def handleIntr (txFifoSz fuel : Nat) : Code Uart PUnit := do
  loop receive fuel
  loop (transmit txFifoSz) fuel

/-- The loops in front of `uart_read` and `uart_write`. -/
def poll : UartOp → Code Uart (Verdict UartOp UartResult)
  | .read len => do
    let head ← .read Uart.rxHead
    let tail ← .read Uart.rxTail
    return if head = tail then .goto (.read len) else .enter
  | .write data => do
    let head ← .read Uart.txHead
    let tail ← .read Uart.txTail
    if head = tail then
      let full ← .read Uart.tFull
      return if full then .goto (.write data) else .enter
    else return .enter

/-- The bytes `uart_read` copies, up to the end of the ring and from its beginning on. -/
def Uart.copyOut (u : Uart) (len : Nat) : List UInt8 :=
  let l :=
    if u.rxHead > u.rxTail then min (u.rxHead - u.rxTail) len else min (BUFFER_SIZE - u.rxTail) len
  let first := slice u.rxBuff u.rxTail l
  if len > l ∧ u.rxHead < u.rxTail then first ++ slice u.rxBuff 0 (min (len - l) u.rxHead) else first

/-- The memory `uart_write` leaves, and the number of bytes it copies. -/
def Uart.copyIn (u : Uart) (data : List UInt8) : (Nat → UInt8) × Nat :=
  let len := data.length
  let l :=
    if u.txHead > u.txTail then min (u.txHead - u.txTail) len else min (BUFFER_SIZE - u.txTail) len
  let mem := overlay u.txBuff u.txTail (data.take l)
  if len > l ∧ u.txTail ≥ u.txHead then
    (overlay mem 0 ((data.drop l).take (min (len - l) u.txHead)), l + min (len - l) u.txHead)
  else (mem, l)

/-- The first byte of all is not left to the handler. -/
def Uart.start (txFifoSz : Nat) (u : Uart) : Uart :=
  if u.txTail = u.txHead then { u with hw := u.hw.send txFifoSz (u.txBuff u.txHead) } else u

def Uart.advance (cnt : Nat) (u : Uart) : Uart :=
  let txTail := (u.txTail + cnt) % BUFFER_SIZE
  { u with txTail := txTail, tFull := if txTail = u.txHead then true else u.tFull }

/-- `uart_read` and `uart_write` with the interrupt off. After a write `uart_safeWrite`
comes back with the bytes that are left. -/
def body (txFifoSz : Nat) : UartOp → Code Uart (UartResult × Option UartOp)
  | .read len => do
    let bytes ← access
      (fun u => { u with rxTail := (u.rxTail + (u.copyOut len).length) % BUFFER_SIZE })
      fun u => u.copyOut len
    return (⟨bytes.length, bytes⟩, none)
  | .write data => do
    let cnt ← access (fun u => { u with txBuff := (u.copyIn data).1 }) fun u => (u.copyIn data).2
    .write (Uart.start txFifoSz)
    .write (Uart.advance cnt)
    onHw fun l => l.setCtrlr (l.ctrlr ||| TIE)
    let rest := data.drop cnt
    return (⟨cnt, []⟩, if rest = [] then none else some (.write rest))

def program (rxFifoSz txFifoSz fuel : Nat) : Program Uart UartOp UartResult LineEvent where
  poll := poll
  body := body txFifoSz
  timeout
    | .read _ => some ⟨-ETIME, []⟩
    | .write _ => none
  handler := handleIntr txFifoSz fuel
  hw e u := { u with hw := u.hw.act rxFifoSz e }

/-- After `uart_init`; the rings are in memory that starts as zeros. -/
def init (statr ctrlr : BitVec 32) : Uart :=
  ⟨.init statr ctrlr, fun _ => 0, 0, 0, fun _ => 0, 0, 0, false⟩

/-- What a ring full of zeros holds besides the place of the byte sent last. -/
def zeros : List UInt8 := List.replicate (BUFFER_SIZE - 1) 0

/-- Nothing is called to write no bytes. -/
def Callable : UartOp → Prop
  | .read _ => True
  | .write data => data ≠ []

section Rings
variable {u : Uart} {rq tq : List UInt8}

theorem copyOut_eq (h : OnRing BUFFER_SIZE u.rxBuff u.rxTail u.rxHead rq)
    (htail : u.rxTail < BUFFER_SIZE) (hne : rq ≠ []) (len : Nat) : u.copyOut len = rq.take len := by
  have hcases := h.stop_cases htail
  have hhead := h.stop_lt
  have hlt := h.length_lt
  have hpos := List.length_pos_of_ne_nil hne
  have htake : rq.take len = window BUFFER_SIZE u.rxBuff u.rxTail (min len rq.length) := by
    conv_lhs => rw [h.cells, window_take]
  have hle : min len rq.length ≤ BUFFER_SIZE := (Nat.min_le_right _ _).trans hlt.le
  rw [htake, window_pieces htail hle]
  simp only [Uart.copyOut]
  by_cases hwrap : u.rxHead > u.rxTail
  · have hlen : min (u.rxHead - u.rxTail) len = min (min len rq.length) (BUFFER_SIZE - u.rxTail) := by
      omega
    have hrest : min len rq.length - (BUFFER_SIZE - u.rxTail) = 0 := by omega
    rw [if_pos hwrap, if_neg fun hmore => absurd hmore.2 (Nat.not_lt.mpr hwrap.le), hlen, hrest]
    exact (List.append_nil _).symm
  · have hlen : min (BUFFER_SIZE - u.rxTail) len =
        min (min len rq.length) (BUFFER_SIZE - u.rxTail) := by omega
    rw [if_neg hwrap, hlen]
    split
    · next hmore =>
      have hrest : min (len - min (min len rq.length) (BUFFER_SIZE - u.rxTail)) u.rxHead =
          min len rq.length - (BUFFER_SIZE - u.rxTail) := by omega
      rw [hrest]
    · next hmore =>
      have hrest : min len rq.length - (BUFFER_SIZE - u.rxTail) = 0 := by omega
      rw [hrest]
      exact (List.append_nil _).symm

/-- How many bytes `uart_write` copies when `room` are free from `txTail` to `txHead`. -/
theorem copyIn_eq {room : Nat} (htail : u.txTail < BUFFER_SIZE) (hhead : u.txHead < BUFFER_SIZE)
    (hroom : (u.txHead > u.txTail ∧ u.txHead = u.txTail + room) ∨
      (u.txHead ≤ u.txTail ∧ u.txHead + BUFFER_SIZE = u.txTail + room)) (data : List UInt8) :
    u.copyIn data = (ringWrite BUFFER_SIZE u.txBuff u.txTail (data.take (min room data.length)),
      min room data.length) := by
  have hlen : (data.take (min room data.length)).length = min room data.length := by
    rw [List.length_take]
    omega
  rw [ringWrite_pieces htail (by omega), List.take_take, List.drop_take]
  simp only [Uart.copyIn]
  by_cases hwrap : u.txHead > u.txTail
  · have hl : min (u.txHead - u.txTail) data.length = min room data.length := by omega
    have hfirst : min (BUFFER_SIZE - u.txTail) (min room data.length) = min room data.length := by
      omega
    have hrest : min room data.length - (BUFFER_SIZE - u.txTail) = 0 := by omega
    rw [if_pos hwrap, if_neg fun hmore => absurd hmore.2 (Nat.not_le.mpr hwrap), hl, hfirst, hrest,
      List.take_zero, overlay_nil]
  · have hl : min (BUFFER_SIZE - u.txTail) data.length =
        min (BUFFER_SIZE - u.txTail) (min room data.length) := by omega
    rw [if_neg hwrap, hl]
    split
    · next hmore =>
      have hfirst : min (BUFFER_SIZE - u.txTail) (min room data.length) = BUFFER_SIZE - u.txTail := by
        omega
      have hrest : min (data.length - (BUFFER_SIZE - u.txTail)) u.txHead =
          min room data.length - (BUFFER_SIZE - u.txTail) := by omega
      have hsum : BUFFER_SIZE - u.txTail + (min room data.length - (BUFFER_SIZE - u.txTail)) =
          min room data.length := by omega
      rw [hfirst, hrest, hsum]
    · next hmore =>
      have hrest : min room data.length - (BUFFER_SIZE - u.txTail) = 0 := by omega
      have hall : min (BUFFER_SIZE - u.txTail) (min room data.length) = min room data.length := by
        omega
      rw [hrest, hall, List.take_zero, overlay_nil]

end Rings

end Plo.Devices.UartImxrt117x
