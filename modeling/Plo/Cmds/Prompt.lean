import Plo.Base.Window
import Plo.Cmds.Cmd

/-!
The line editor of the prompt. The line that is edited and those that were executed lie in
one ring of buffers: `ll` is the line that is edited, and `cl` the one that the arrows
have reached.
-/
namespace Plo.Cmds

abbrev SIZE_HIST : Nat := 8

/-- `cmd_common` with the variables of `cmd_prompt`. `parsed` are the lines given to
`cmd_parse`, the last one first. -/
structure Prompt where
  ll : Nat
  cl : Nat
  lines : Nat → Nat → UInt8
  pos : Nat
  newline : Bool
  parsed : List CString

namespace Prompt

/-- The string in a buffer. -/
def line (p : Prompt) (k : Nat) : CString :=
  CString.ofBuffer (slice (p.lines k) 0 SIZE_CMD_ARG_LINE)

/-- The line that is edited with `data` written to it from index `i` on. -/
def write (p : Prompt) (i : Nat) (data : List UInt8) : Prompt :=
  { p with lines := fun k => if k = p.ll then overlay (p.lines k) i data else p.lines k }

@[simp] theorem write_lines_self (p : Prompt) (i : Nat) (data : List UInt8) :
    (p.write i data).lines p.ll = overlay (p.lines p.ll) i data := if_pos rfl

theorem write_lines_of_ne (p : Prompt) {k : Nat} (hk : k ≠ p.ll) (i : Nat) (data : List UInt8) :
    (p.write i data).lines k = p.lines k := if_neg hk

def enter (p : Prompt) : Prompt :=
  if p.pos ≠ 0 then
    { p with
      parsed := p.line p.ll :: p.parsed
      ll := (p.ll + 1) % SIZE_HIST
      cl := (p.ll + 1) % SIZE_HIST
      pos := 0 }
  else p

def append (p : Prompt) (c : UInt8) : Prompt :=
  { (p.write p.pos [c]).write (p.pos + 1) [0] with pos := p.pos + 1 }

def erase (p : Prompt) : Prompt := { p.write (p.pos - 1) [0] with pos := p.pos - 1 }

/-- The copy of the line the arrows have reached, with its NUL. -/
def fetch (p : Prompt) : Prompt :=
  p.write 0 (slice (p.lines p.cl) 0 ((p.line p.cl).bytes.length + 1))

/-- The cursor goes behind the line after it was replaced. -/
def redraw (p : Prompt) : Prompt := { p with pos := (p.line p.ll).bytes.length }

def up (p : Prompt) : Prompt :=
  let ncl := (p.cl + SIZE_HIST - 1) % SIZE_HIST
  if ncl ≠ p.ll ∧ p.lines ncl 0 ≠ 0 then { p with cl := ncl }.fetch.redraw else p

def down (p : Prompt) : Prompt :=
  let ncl := (p.cl + 1) % SIZE_HIST
  if p.cl ≠ p.ll then
    if ncl ≠ p.ll then { p with cl := ncl }.fetch.redraw
    else ({ p with cl := ncl }.write 0 [0]).redraw
  else p

/-- One turn of the loop, after a character `c` or a control code `sc` was read. -/
def key (p : Prompt) (c sc : UInt8) : Prompt :=
  if c ≠ 0 then
    if c = 0x0d ∨ c = 0x0a then
      if c = 0x0d then { p with newline := true }.enter
      else if p.newline then { p with newline := false }
      else p.enter
    else if c = 0x09 then p
    else
      let p := { p with newline := false }
      let p := if c ≠ 8 ∧ p.pos < SIZE_CMD_ARG_LINE - 1 then p.append c else p
      if c = 8 ∧ p.pos > 0 then p.erase else p
  else if sc = 72 then p.up
  else if sc = 80 then p.down
  else p

end Prompt

/-- The character and the control code of a turn, and the characters left; nothing while the
prompt waits for another one. -/
def readKey : List UInt8 → Option ((UInt8 × UInt8) × List UInt8)
  | [] => none
  | c :: cs =>
    if c = 127 then some ((8, 0), cs)
    else if c = 27 then
      match cs with
      | [] => none
      | c :: cs =>
        if c = 91 then
          match cs with
          | [] => none
          | c :: cs => some ((0, if c = 0x41 then 72 else if c = 0x42 then 80 else 0), cs)
        else some ((0, 0), cs)
    else some ((c, 0), cs)

theorem readKey_shorter {input rest : List UInt8} {k : UInt8 × UInt8}
    (h : readKey input = some (k, rest)) : rest.length < input.length := by
  simp only [readKey] at h
  split at h
  · cases h
  · split at h
    · cases h
      exact Nat.lt_succ_self _
    · split at h
      · split at h
        · cases h
        · split at h
          · split at h
            · cases h
            · cases h
              simp only [List.length_cons]
              omega
          · cases h
            simp only [List.length_cons]
            omega
      · cases h
        exact Nat.lt_succ_self _

/-- The loop of `cmd_prompt` on the characters received so far; `#` ends it. -/
def promptLoop (p : Prompt) (input : List UInt8) : Prompt :=
  match _h : readKey input with
  | none => p
  | some ((c, sc), rest) => if c = 0x23 then p.key c sc else promptLoop (p.key c sc) rest
termination_by input.length
decreasing_by exact readKey_shorter _h

/-- The prompt before the first character; the lines start with a NUL. -/
def Prompt.init (mem : Nat → Nat → UInt8) : Prompt :=
  ⟨0, 0, fun k => overlay (mem k) 0 [0], 0, false, []⟩

/-- `cmd_prompt` with buffers that held `mem`. -/
def cmdPrompt (mem : Nat → Nat → UInt8) (input : List UInt8) : Prompt :=
  promptLoop (Prompt.init mem) input

end Plo.Cmds
