import Mathlib.Logic.Function.Basic
import Plo.Lib.Types

/-!
The terminal emulator for VGA text mode, which the terminal of the BIOS and the console share but
for the tab. A character is signed, so that one with its high bit set comes before the blank. A
register of the CRT controller is selected before each access to it. The cells of the video
memory and the parameters that are used by an index are recorded.
-/
namespace Plo.Devices.Vga

def TTYBIOS_TAB_WIDTH : Nat := 8

/-- The states of an escape sequence. -/
inductive Esc
  | init | esc | csi | csiqm
  deriving DecidableEq

def ansi2fg : List UInt8 := [0x00, 0x04, 0x02, 0x06, 0x01, 0x05, 0x03, 0x07]
def ansi2bg : List UInt8 := [0x00, 0x40, 0x20, 0x60, 0x10, 0x50, 0x30, 0x70]

/-- `sizeof(tty->parms)`. -/
def PARMS_SIZE : Nat := 10

/-- A cell of the video memory or a parameter that is used. -/
inductive Access
  | cell (i : Nat)
  | parm (i : Nat)
  deriving DecidableEq

/-- `ttybios_t`, with the video memory and the registers of the CRT controller. -/
structure Tty where
  vram : Nat → BitVec 16
  crtc : Nat → UInt8
  rows : Nat
  cols : Nat
  attr : UInt8
  esc : Esc
  parmi : Nat
  parms : Nat → UInt8
  accesses : List Access

def Tty.record (t : Tty) (a : Access) : Tty := { t with accesses := t.accesses ++ [a] }

/-- A cell is stored. -/
def Tty.put (t : Tty) (i : Nat) (val : BitVec 16) : Tty :=
  { t.record (.cell i) with vram := Function.update t.vram i val }

/-- A cell is copied. -/
def Tty.copy (t : Tty) (dst src : Nat) : Tty := (t.record (.cell src)).put dst (t.vram src)

/-- `ttybios_memset` and `console_memset`. -/
def Tty.memset (t : Tty) (first : Nat) (val : BitVec 16) (n : Nat) : Tty :=
  (List.range n).foldl (fun t i => t.put (first + i) val) t

/-- `ttybios_memmove` and `console_memmove`. -/
def Tty.memmove (t : Tty) (dst src n : Nat) : Tty :=
  if dst < src then (List.range n).foldl (fun t i => t.copy (dst + i) (src + i)) t
  else (List.range n).reverse.foldl (fun t i => t.copy (dst + i) (src + i)) t

/-- A character with the attribute. -/
def Tty.cellOf (t : Tty) (c : UInt8) : BitVec 16 :=
  (t.attr.toBitVec.setWidth 16 <<< 8) ||| c.toBitVec.setWidth 16

def Tty.clearParms (t : Tty) : Tty := { t with parms := fun _ => 0, parmi := 0 }

/-- `tty->parms[i] = val` for an index that is fixed. -/
def Tty.setParm (t : Tty) (i : Nat) (val : UInt8) : Tty :=
  { t with parms := Function.update t.parms i val }

def Tty.outb (t : Tty) (reg : Nat) (val : UInt8) : Tty :=
  { t with crtc := Function.update t.crtc reg val }

/-- Where the cursor is, in the registers of the CRT controller. -/
def Tty.pos (t : Tty) : Nat := (t.crtc 0x0f).toNat ||| ((t.crtc 0x0e).toNat <<< 8)

/-- The locals of the loop that are kept from one character to the next. -/
structure Loop where
  tty : Tty
  row : Nat
  col : Nat

/-- The loop prints from the position of the cursor on. -/
def Tty.start (t : Tty) : Loop := { tty := t, row := t.pos / t.cols, col := t.pos % t.cols }

/-- `(c < ' ') || (c == '\177')`. -/
def isControl (c : UInt8) : Bool := c < 0x20 || 0x80 ≤ c || c = 0x7f

/-- A control character. The console has no tab. -/
def control (tab : Option Nat) (l : Loop) (c : UInt8) : Loop :=
  if c = 0x08 ∨ c = 0x7f then
    if l.col ≠ 0 then { l with col := l.col - 1 }
    else if l.row ≠ 0 then { l with row := l.row - 1, col := l.tty.cols - 1 }
    else l
  else if c = 0x09 then
    match tab with
    | some width => { l with col := l.col + (width - l.col % width) }
    | none => l
  else if c = 0x0a then { l with row := l.row + 1, col := 0 }
  else if c = 0x0d then { l with col := 0 }
  else if c = 0x1b then { l with tty := { l.tty.clearParms with esc := .esc } }
  else l

def isDigit (c : UInt8) : Bool := 0x30 ≤ c && c ≤ 0x39

/-- A digit of a parameter, which wraps around. -/
def digit (t : Tty) (c : UInt8) : Tty :=
  let t := t.record (.parm t.parmi)
  t.setParm t.parmi (t.parms t.parmi * 10 + (c - 0x30))

/-- A semicolon: the last parameter takes all digits that are left. -/
def nextParm (t : Tty) : Tty := if t.parmi + 1 < PARMS_SIZE then { t with parmi := t.parmi + 1 } else t

/-- Parameter `i`, from 1 to `top`, for the place of the cursor. -/
def clampParm (t : Tty) (i top : Nat) : Tty :=
  if t.parms i < 1 then t.setParm i 1
  else if (t.parms i).toNat > top then t.setParm i (UInt8.ofNat top)
  else t

/-- `H`: the cursor is moved. -/
def moveCursor (l : Loop) : Loop :=
  let t := clampParm (clampParm l.tty 0 l.tty.rows) 1 l.tty.cols
  { tty := { t with esc := .init }, row := (t.parms 0).toNat - 1, col := (t.parms 1).toNat - 1 }

/-- `J`: a part of the screen is cleared. -/
def clear (l : Loop) : Loop :=
  let t := l.tty
  let blank := t.cellOf 0x20
  let t :=
    if t.parms 0 = 0 then
      t.memset (l.row * t.cols + l.col) blank (t.cols * (t.rows - l.row) - l.col)
    else if t.parms 0 = 1 then t.memset 0 blank (l.row * t.cols + l.col + 1)
    else if t.parms 0 = 2 then t.memset 0 blank (t.rows * t.cols)
    else t
  { l with tty := { t with esc := .init } }

/-- What `m` does with one parameter. -/
def setAttr (t : Tty) (i : Nat) : Tty :=
  let t := t.record (.parm i)
  let p := t.parms i
  if p = 0 then { t with attr := 0x07 }
  else if p = 1 then { t with attr := 0x0f }
  else if 30 ≤ p ∧ p ≤ 37 then
    { t with attr := (t.attr &&& 0xf0) ||| ansi2fg.getD ((p - 30) &&& 0x7).toNat 0 }
  else if 40 ≤ p ∧ p ≤ 47 then
    { t with attr := ansi2bg.getD ((p - 40) &&& 0x7).toNat 0 ||| (t.attr &&& 0x0f) }
  else t

/-- `m`: the parameters up to the index, at least one of them, set the attribute. -/
def setAttrs (t : Tty) : Tty := { (List.range (t.parmi + 1)).foldl setAttr t with esc := .init }

/-- `h` and `l`: the bit that hides the cursor. -/
def showCursor (t : Tty) (hide : Bool) : Tty :=
  let t :=
    if t.parms 0 = 25 then
      t.outb 0x0a (if hide then t.crtc 0x0a ||| 0x20 else t.crtc 0x0a &&& ~~~0x20)
    else t
  { t with esc := .init }

/-- A character that is no control character, by the state of the escape sequence. -/
def character (l : Loop) (c : UInt8) : Loop :=
  let t := l.tty
  match t.esc with
  | .init => { l with tty := t.put (l.row * t.cols + l.col) (t.cellOf c), col := l.col + 1 }
  | .esc =>
    if c = 0x5b then { l with tty := { t.clearParms with esc := .csi } }
    else { l with tty := { t with esc := .init } }
  | .csi =>
    if isDigit c then { l with tty := digit t c }
    else if c = 0x3b then { l with tty := nextParm t }
    else if c = 0x3f then { l with tty := { t with esc := .csiqm } }
    else if c = 0x48 then moveCursor l
    else if c = 0x4a then clear l
    else if c = 0x6d then { l with tty := setAttrs t }
    else { l with tty := { t with esc := .init } }
  | .csiqm =>
    if isDigit c then { l with tty := digit t c }
    else if c = 0x3b then { l with tty := nextParm t }
    else if c = 0x68 then { l with tty := showCursor t false }
    else if c = 0x6c then { l with tty := showCursor t true }
    else { l with tty := { t with esc := .init } }

/-- The end of a line. -/
def endOfLine (l : Loop) : Loop :=
  if l.col = l.tty.cols then { l with row := l.row + 1, col := 0 } else l

/-- The screen is scrolled when the cursor is below it. -/
def scrollDown (l : Loop) : Loop :=
  if l.row = l.tty.rows then
    let i := l.tty.cols * (l.tty.rows - 1)
    let t := l.tty.memmove 0 l.tty.cols i
    { tty := t.memset i (t.cellOf 0x20) t.cols, row := l.row - 1, col := 0 }
  else l

/-- The cursor is moved to its place, and its cell gets the attribute. -/
def updateCursor (l : Loop) : Loop :=
  let i := l.row * l.tty.cols + l.col
  let t := l.tty.outb 0x0e (UInt8.ofNat (i >>> 8))
  let t := t.outb 0x0f (UInt8.ofNat i)
  { l with tty := t.put i ((t.vram i &&& 0xff) ||| (t.attr.toBitVec.setWidth 16 <<< 8)) }

/-- The body of the loop. -/
def step (tab : Option Nat) (l : Loop) (c : UInt8) : Loop :=
  updateCursor (scrollDown (endOfLine (if isControl c then control tab l c else character l c)))

/-- The loop after these characters. -/
def run (tab : Option Nat) (t : Tty) (bytes : List UInt8) : Loop := bytes.foldl (step tab) t.start

/-- `ttybios_write`, for a terminal that there is. -/
def ttybiosWrite (t : Tty) (buff : List UInt8) : Tty × Int :=
  ((run (some TTYBIOS_TAB_WIDTH) t buff).tty, (BitVec.ofNat 32 buff.length).toInt)

/-- `hal_consoleVgaPrint`, and what a hook is called with if there is one. -/
def halConsoleVgaPrint (t : Tty) (writeHook : Bool) (s : CString) : Tty × Option (List UInt8) :=
  ((run none t s.bytes).tty, if writeHook then some (s.bytes ++ [0]) else none)

/-- `ttybios_init` on a terminal that was not used, and the console before it is cleared. -/
def ttybiosInit (vram : Nat → BitVec 16) (crtc : Nat → UInt8) : Tty where
  vram := vram
  crtc := crtc
  rows := 25
  cols := 80
  attr := 0x05
  esc := .init
  parmi := 0
  parms := fun _ => 0
  accesses := []

end Plo.Devices.Vga
