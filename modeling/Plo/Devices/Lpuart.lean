import Mathlib.Algebra.Order.Ring.Nat
import Plo.Base.Interrupts
import Plo.Lib.Types

/-!
The LPUART of the i.MX RT, as the drivers of the 106x and of the 117x use it: the FIFOs,
the lines behind them, and the registers the drivers read and write once they are
initialised. Both drivers read and write bytes from interrupt handlers; what they have in
common is here.
-/
namespace Plo.Devices.Uart
open Plo.Critical (Code)

def ETIME : Int := 37

/-- Receiver overrun in `statr`, transmit interrupt enable in `ctrlr`. -/
def OVERRUN : BitVec 32 := 1#32 <<< 19
def TIE : BitVec 32 := 1#32 <<< 23

/-- `line` is what has gone out, `arrived` what has come in; `lost` counts those of the
bytes that came in which nobody will read. -/
structure Lpuart where
  rxFifo : List UInt8
  txFifo : List UInt8
  line : List UInt8
  arrived : List UInt8
  lost : Nat
  statr : BitVec 32
  ctrlr : BitVec 32

inductive LineEvent
  | arrive (c : UInt8)
  | shift
  | error (flags : BitVec 32)

namespace Lpuart

def init (statr ctrlr : BitVec 32) : Lpuart := ⟨[], [], [], [], 0, statr, ctrlr⟩

/-- What happens on the lines. After an overrun nothing is received until its flag is
cleared; the other errors set flags only. -/
def act (rxSz : Nat) : LineEvent → Lpuart → Lpuart
  | .arrive c, l =>
    if l.rxFifo.length < rxSz ∧ l.statr &&& OVERRUN = 0 then
      { l with rxFifo := l.rxFifo ++ [c], arrived := l.arrived ++ [c] }
    else { l with arrived := l.arrived ++ [c], lost := l.lost + 1, statr := l.statr ||| OVERRUN }
  | .shift, l =>
    match l.txFifo with
    | [] => l
    | c :: rest => { l with txFifo := rest, line := l.line ++ [c] }
  | .error flags, l => { l with statr := l.statr ||| (flags &&& (0x7#32 <<< 16)) }

/-- The counts in `waterr`; the watermarks are zero. -/
def waterr (l : Lpuart) : BitVec 32 :=
  (BitVec.ofNat 8 l.rxFifo.length).setWidth 32 <<< 24 |||
    (BitVec.ofNat 8 l.txFifo.length).setWidth 32 <<< 8

def getRXcount (l : Lpuart) : Nat := ((l.waterr >>> 24) &&& 0xff#32).toNat
def getTXcount (l : Lpuart) : Nat := ((l.waterr >>> 8) &&& 0xff#32).toNat

/-- `datar` read, and what it reads. -/
def pop (l : Lpuart) : Lpuart := { l with rxFifo := l.rxFifo.tail }
def front (l : Lpuart) : UInt8 := l.rxFifo.headD 0

/-- `datar` written; a full FIFO does not take the byte. -/
def send (txSz : Nat) (c : UInt8) (l : Lpuart) : Lpuart :=
  if l.txFifo.length < txSz then { l with txFifo := l.txFifo ++ [c] } else l

/-- The receive FIFO flushed through `fifor`. -/
def flush (l : Lpuart) : Lpuart := { l with rxFifo := [], lost := l.lost + l.rxFifo.length }

/-- `statr` written: a one clears its flag. -/
def setStatr (v : BitVec 32) (l : Lpuart) : Lpuart := { l with statr := l.statr &&& ~~~v }

def setCtrlr (v : BitVec 32) (l : Lpuart) : Lpuart := { l with ctrlr := v }

/-- A received byte that is thrown away. -/
def lose (l : Lpuart) : Lpuart := { l with lost := l.lost + 1 }

theorem toNat_byte (x : BitVec 32) (k : Nat) :
    ((x >>> k) &&& 0xff#32).toNat = x.toNat / 2 ^ k % 256 := by
  rw [BitVec.toNat_and, BitVec.toNat_ushiftRight, Nat.shiftRight_eq_div_pow]
  exact Nat.and_two_pow_sub_one_eq_mod _ 8

theorem toNat_waterr (l : Lpuart) :
    l.waterr.toNat = (l.rxFifo.length % 256) * 2 ^ 24 + (l.txFifo.length % 256) * 2 ^ 8 := by
  have hrx : ((BitVec.ofNat 8 l.rxFifo.length).setWidth 32 <<< 24).toNat =
      (l.rxFifo.length % 256) <<< 24 := by
    simp only [BitVec.toNat_shiftLeft, BitVec.toNat_setWidth, BitVec.toNat_ofNat, Nat.shiftLeft_eq]
    omega
  have htx : ((BitVec.ofNat 8 l.txFifo.length).setWidth 32 <<< 8).toNat =
      (l.txFifo.length % 256) * 2 ^ 8 := by
    simp only [BitVec.toNat_shiftLeft, BitVec.toNat_setWidth, BitVec.toNat_ofNat, Nat.shiftLeft_eq]
    omega
  have hlt : (l.txFifo.length % 256) * 2 ^ 8 < 2 ^ 24 := by omega
  rw [waterr, BitVec.toNat_or, hrx, htx, ← Nat.shiftLeft_add_eq_or_of_lt hlt, Nat.shiftLeft_eq]

theorem getRXcount_eq (l : Lpuart) : l.getRXcount = l.rxFifo.length % 256 := by
  rw [getRXcount, toNat_byte, toNat_waterr]
  omega

theorem getTXcount_eq (l : Lpuart) : l.getTXcount = l.txFifo.length % 256 := by
  rw [getTXcount, toNat_byte, toNat_waterr]
  omega

/-- Every byte that came in is among those taken from the FIFO, still there, or lost, and
they are in the order in which they came in. -/
structure Received (l : Lpuart) (got : List UInt8) : Prop where
  order : (got ++ l.rxFifo).Sublist l.arrived
  count : got.length + l.rxFifo.length + l.lost = l.arrived.length

/-- What has gone out, what the FIFO has and what is to be sent are all the bytes. -/
structure Transmits (l : Lpuart) (txSz : Nat) (pending all : List UInt8) : Prop where
  bytes : l.line ++ l.txFifo ++ pending = all
  room : l.txFifo.length ≤ txSz

section Flow
variable {l : Lpuart} {got pending all : List UInt8} {txSz rxSz : Nat} {c : UInt8}

theorem Received.act (h : l.Received got) (e : LineEvent) : (l.act rxSz e).Received got := by
  obtain ⟨horder, hcount⟩ := h
  cases e with
  | arrive c =>
      simp only [Lpuart.act]
      split
      · refine ⟨?_, ?_⟩
        · rw [← List.append_assoc]
          exact horder.append (List.Sublist.refl [c])
        · simp only [List.length_append, List.length_singleton]
          omega
      · refine ⟨horder.trans (List.sublist_append_left _ _), ?_⟩
        simp only [List.length_append, List.length_singleton]
        omega
  | shift =>
      simp only [Lpuart.act]
      split <;> exact ⟨horder, hcount⟩
  | error flags => exact ⟨horder, hcount⟩

theorem Transmits.act (h : l.Transmits txSz pending all) (e : LineEvent) :
    (l.act rxSz e).Transmits txSz pending all := by
  obtain ⟨hbytes, hroom⟩ := h
  cases e with
  | arrive c =>
      simp only [Lpuart.act]
      split <;> exact ⟨hbytes, hroom⟩
  | shift =>
      simp only [Lpuart.act]
      split
      · exact ⟨hbytes, hroom⟩
      · next c rest hfifo =>
        rw [hfifo] at hbytes hroom
        refine ⟨?_, Nat.le_of_succ_le hroom⟩
        rw [← hbytes]
        simp
  | error flags => exact ⟨hbytes, hroom⟩

theorem ctrlr_act (l : Lpuart) (e : LineEvent) : (l.act rxSz e).ctrlr = l.ctrlr := by
  cases e with
  | arrive c =>
      simp only [Lpuart.act]
      split <;> rfl
  | shift =>
      simp only [Lpuart.act]
      split <;> rfl
  | error flags => rfl

theorem act_setCtrlr (l : Lpuart) (v : BitVec 32) (e : LineEvent) :
    (l.setCtrlr v).act rxSz e = (l.act rxSz e).setCtrlr v := by
  cases e with
  | arrive c =>
      by_cases hfits : l.rxFifo.length < rxSz ∧ l.statr &&& OVERRUN = 0
      · rw [Lpuart.act, Lpuart.act, if_pos hfits]
        exact if_pos hfits
      · rw [Lpuart.act, Lpuart.act, if_neg hfits]
        exact if_neg hfits
  | shift => cases htx : l.txFifo <;> simp only [Lpuart.act, setCtrlr, htx]
  | error flags => rfl

/-- Lines that have nothing to send stay so. -/
theorem act_idle (hline : l.line = []) (hfifo : l.txFifo = []) (e : LineEvent) :
    (l.act rxSz e).line = [] ∧ (l.act rxSz e).txFifo = [] := by
  cases e with
  | arrive c =>
      simp only [Lpuart.act]
      split <;> exact ⟨hline, hfifo⟩
  | shift => simp [Lpuart.act, hline, hfifo]
  | error flags => exact ⟨hline, hfifo⟩

theorem enabled_or (v : BitVec 32) : (v ||| TIE) &&& TIE ≠ 0 := by
  have habsorb : (v ||| TIE) &&& TIE = TIE := by
    ext i hi
    simp only [BitVec.getElem_and, BitVec.getElem_or]
    cases v[i] <;> cases TIE[i] <;> rfl
  rw [habsorb]
  decide

/-- The hardware never takes bytes from the FIFO for receiving. -/
theorem rxFifo_act (h : l.rxFifo ≠ []) (e : LineEvent) : (l.act rxSz e).rxFifo ≠ [] := by
  cases e with
  | arrive c =>
      simp only [Lpuart.act]
      split
      · exact List.append_ne_nil_of_left_ne_nil h _
      · exact h
  | shift =>
      simp only [Lpuart.act]
      split <;> exact h
  | error flags => exact h

/-- The hardware never takes room in the FIFO for sending. -/
theorem room_act (h : l.txFifo.length < txSz) (e : LineEvent) :
    (l.act rxSz e).txFifo.length < txSz := by
  cases e with
  | arrive c =>
      simp only [Lpuart.act]
      split <;> exact h
  | shift =>
      simp only [Lpuart.act]
      split
      · exact h
      · next c rest hfifo =>
        rw [hfifo] at h
        exact Nat.lt_of_succ_lt h
  | error flags => exact h

theorem Received.pop (h : l.Received got) (hfifo : l.rxFifo ≠ []) :
    l.pop.Received (got ++ [l.front]) := by
  obtain ⟨c, rest, hrest⟩ := List.exists_cons_of_ne_nil hfifo
  obtain ⟨horder, hcount⟩ := h
  rw [hrest] at horder hcount
  refine ⟨?_, ?_⟩
  · simpa [Lpuart.pop, front, hrest] using horder
  · simp only [Lpuart.pop, hrest, List.tail_cons, List.length_append, List.length_singleton]
    simp only [List.length_cons] at hcount
    omega

theorem Received.send (h : l.Received got) (c : UInt8) : (l.send txSz c).Received got := by
  simp only [Lpuart.send]
  split <;> exact ⟨h.order, h.count⟩

theorem ctrlr_send (l : Lpuart) (c : UInt8) : (l.send txSz c).ctrlr = l.ctrlr := by
  simp only [Lpuart.send]
  split <;> rfl

theorem Received.flush (h : l.Received got) : l.flush.Received got := by
  obtain ⟨horder, hcount⟩ := h
  refine ⟨?_, ?_⟩
  · rw [Lpuart.flush, List.append_nil]
    exact (List.sublist_append_left _ _).trans horder
  · simp only [Lpuart.flush, List.length_nil]
    omega

/-- A byte that was taken from the FIFO is thrown away. -/
theorem Received.lose {got' : List UInt8} (h : l.Received got) (hsub : got'.Sublist got)
    (hlen : got.length = got'.length + 1) : l.lose.Received got' := by
  obtain ⟨horder, hcount⟩ := h
  refine ⟨(hsub.append (List.Sublist.refl _)).trans horder, ?_⟩
  simp only [Lpuart.lose]
  omega

theorem Transmits.send (h : l.Transmits txSz (c :: pending) all) (hroom : l.txFifo.length < txSz) :
    (l.send txSz c).Transmits txSz pending all := by
  obtain ⟨hbytes, -⟩ := h
  rw [Lpuart.send, if_pos hroom]
  refine ⟨?_, ?_⟩
  · rw [← hbytes]
    simp
  · rw [List.length_append, List.length_singleton]
    exact hroom

end Flow

end Lpuart

/-- What the drivers are called for. A call of `uart_safeWrite` comes back to writing with
the bytes it still has. -/
inductive UartOp
  | read (len : Nat)
  | write (data : List UInt8)

/-- What a call returns, and the bytes it gives the caller. -/
structure UartResult where
  ret : Int
  data : List UInt8

/-- The bytes all reads have given their callers. -/
def delivered (log : List (UartOp × UartResult)) : List UInt8 := log.flatMap fun e => e.2.data

def UartOp.bytes : UartOp → List UInt8
  | .read _ => []
  | .write data => data

/-- The bytes of all calls to write. -/
def written (calls : List UartOp) : List UInt8 := calls.flatMap UartOp.bytes

/-- The bytes that the call at hand still has to write. -/
def unwritten (here : Option UartOp) : List UInt8 := (here.map UartOp.bytes).getD []

@[simp] theorem delivered_append (log : List (UartOp × UartResult)) (op : UartOp) (r : UartResult) :
    delivered (log ++ [(op, r)]) = delivered log ++ r.data := by
  simp [delivered]

@[simp] theorem written_append (calls : List UartOp) (op : UartOp) :
    written (calls ++ [op]) = written calls ++ op.bytes := by
  simp [written]

@[simp] theorem unwritten_none : unwritten none = [] := rfl

@[simp] theorem unwritten_some (op : UartOp) : unwritten (some op) = op.bytes := rfl

/-- A read gives its caller some bytes and no more than it asks for, or times out; a
write takes some of its bytes. -/
def UartResult.Fits (r : UartResult) : UartOp → Prop
  | .read len =>
    r = ⟨-ETIME, []⟩ ∨ (r.ret = r.data.length ∧ r.data.length ≤ len ∧ (0 < len → r.data ≠ []))
  | .write data => 1 ≤ r.ret ∧ r.ret ≤ data.length ∧ r.data = []

theorem delivered_ret_nil (h : Interrupts.History UartOp UartResult) (op : UartOp) (ret : Int) :
    delivered (h.ret op ⟨ret, []⟩).log = delivered h.log := by
  rw [Interrupts.History.ret, delivered_append, List.append_nil]

theorem fits_ret {h : Interrupts.History UartOp UartResult} {op : UartOp} {r : UartResult}
    (hlog : ∀ e ∈ h.log, e.2.Fits e.1) (hr : r.Fits op) : ∀ e ∈ (h.ret op r).log, e.2.Fits e.1 := by
  intro e he
  cases List.mem_append.mp he with
  | inl hold => exact hlog e hold
  | inr hnew =>
      obtain rfl := List.mem_singleton.mp hnew
      exact hr

end Plo.Devices.Uart
