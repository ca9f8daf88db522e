import Plo.Phfs.Aliases

/-!
The command interpreter. `cmd_parse` walks a script with one pointer and runs a
command for every line that has arguments; `cmd_call` reads a script from a file
byte by byte, cuts it at newlines and gives every piece to `cmd_parse`. What a
command does is a parameter: the state it leaves and what it returns, or nothing
when it does not return.
-/
namespace Plo.Cmds
open Phfs
variable {σ : Type}

abbrev SIZE_CMD_ARG_LINE : Nat := 256
abbrev SIZE_CMD_ARGV : Nat := 10 + 1
abbrev SIZE_MAGIC_NB : Nat := 8

def newline : UInt8 := 0x0a

def isblank (c : UInt8) : Bool := c == 0x20 || c == 0x09
def isspace (c : UInt8) : Bool := isblank c || (newline ≤ c && c ≤ 0x0d)
def isgraph (c : UInt8) : Bool := 0x20 < c && c < 0x7f

theorem isgraph_ne_zero {c : UInt8} (h : isgraph c) : c ≠ 0 := by
  intro h0
  rw [h0] at h
  exact absurd h (by decide)

/-- The argument at the beginning of `lines`, as far as `room` bytes hold it. -/
def argument (lines : List UInt8) (room : Nat) : CString where
  bytes := (lines.takeWhile isgraph).take room
  noNul := fun h => isgraph_ne_zero (List.mem_takeWhile_imp (List.mem_of_mem_take h)) rfl

theorem length_argument_le (lines : List UInt8) (room : Nat) :
    (argument lines room).bytes.length ≤ lines.length := by
  simp only [argument]
  exact (List.take_sublist _ _).length_le.trans (List.takeWhile_sublist _).length_le

/-- The loop of `cmd_parseArgLine` with `room` bytes left in its buffer: the
arguments and the rest of the script behind them. An argument can be empty: a
byte that is neither space nor printable is not stepped over. -/
def parseArgs (lines : List UInt8) (room : Nat) (argv : List CString) :
    Except Int (List CString × List UInt8) :=
  match lines with
  | [] => .ok (argv, [])
  | c :: cs =>
    if isspace c then
      if isblank c then parseArgs cs room argv else .ok (argv, cs)
    else if argv.length + 1 ≥ SIZE_CMD_ARGV then .error (-EINVAL)
    else
      let arg := argument (c :: cs) room
      if room ≤ arg.bytes.length then .error (-ENOMEM)
      else
        parseArgs ((c :: cs).drop arg.bytes.length) (room - arg.bytes.length - 1) (argv ++ [arg])
termination_by lines.length + (SIZE_CMD_ARGV - argv.length)
decreasing_by
  · simp only [List.length_cons]
    omega
  · simp only [List.length_drop, List.length_append, List.length_singleton]
    have := length_argument_le (c :: cs) room
    omega

/-- What `cmd_parseArgLine` returns at the end of the script. -/
def endOfScript : Int := -1

def parseArgLine (lines : List UInt8) : Except Int (List CString × List UInt8) :=
  if lines = [] then .error endOfScript
  else parseArgs lines SIZE_CMD_ARG_LINE []

theorem parseArgs_suffix {lines : List UInt8} {room : Nat} {argv : List CString}
    {line : List CString × List UInt8} (h : parseArgs lines room argv = .ok line) :
    line.2.length ≤ lines.length - 1 := by
  fun_induction parseArgs lines room argv with
  | case1 room argv =>
      cases h
      exact Nat.le_refl _
  | case2 room argv c cs hspace hblank ih =>
      have := ih h
      simp only [List.length_cons]
      omega
  | case3 room argv c cs hspace hblank =>
      cases h
      exact Nat.le_refl _
  | case4 | case5 => cases h
  | case6 room argv c cs hspace hargc arg hroom ih =>
      have := ih h
      simp only [List.length_drop, List.length_cons] at this ⊢
      omega

theorem parseArgLine_shorter {lines : List UInt8} {line : List CString × List UInt8}
    (h : parseArgLine lines = .ok line) : line.2.length < lines.length := by
  simp only [parseArgLine] at h
  split at h
  · cases h
  · next hne =>
    have := parseArgs_suffix h
    have := List.length_pos_iff.mpr hne
    omega

/-- A command of the table. -/
structure Command (σ : Type) where
  name : CString
  run : σ → List CString → Option (σ × Int)

/-- What a script did: the state it left, the argument vectors of the commands it
ran, and its result unless a command did not return. -/
@[ext] structure Outcome (σ : Type) where
  state : σ
  executed : List (List CString)
  res : Option Int

/-- What follows a command or a piece of a script: it is reached when the result
is zero, and any other result ends the script with an error. -/
def Outcome.andThen (o : Outcome σ) (next : σ → Outcome σ) : Outcome σ :=
  match o.res with
  | none => o
  | some res =>
    if res ≠ 0 then { o with res := some (if res < 0 then res else -EINVAL) }
    else { next o.state with executed := o.executed ++ (next o.state).executed }

/-- The loop over the table: the first command with the name in `argv[0]` is run. -/
def launch (cmds : List (Command σ)) (s : σ) (argv : List CString) : Outcome σ :=
  match cmds.find? (fun cmd => argv.head? = some cmd.name) with
  | none => ⟨s, [], some (-EINVAL)⟩
  | some cmd =>
    match cmd.run s argv with
    | none => ⟨s, [argv], none⟩
    | some (s, ret) => ⟨s, [argv], some ret⟩

/-- `cmd_parse` on the rest of a script. -/
def parse (cmds : List (Command σ)) (s : σ) (lines : List UInt8) : Outcome σ :=
  match _h : parseArgLine lines with
  | .error argc => ⟨s, [], some (if argc = endOfScript then EOK else argc)⟩
  | .ok (argv, rest) =>
    if argv = [] then parse cmds s rest
    else (launch cmds s argv).andThen fun s => parse cmds s rest
termination_by lines.length
decreasing_by
  · exact parseArgLine_shorter _h
  · exact parseArgLine_shorter _h

def cmdParse (cmds : List (Command σ)) (s : σ) (script : CString) : Outcome σ :=
  parse cmds s script.bytes

/-- `phfs_open` and `phfs_read` as the interpreter calls them. -/
structure Files (σ : Type) where
  phfsOpen : σ → (dev file : CString) → Except Int Handler
  phfsRead : σ → Handler → (offs len : Nat) → Except Int (List UInt8)

section Call
variable (cmds : List (Command σ)) (files : Files σ)

/-- The loop of `cmd_call`, for at most `fuel` bytes. `buff` is the line read so
far. Where nothing is read the loop ends, whatever the last byte was. -/
def callLoop (h : Handler) : Nat → σ → Nat → List UInt8 → Outcome σ
  | 0, s, _, _ => ⟨s, [], none⟩
  | fuel + 1, s, offs, buff =>
    match files.phfsRead s h offs 1 with
    | .error len => ⟨s, [], some len⟩
    | .ok [] =>
      (cmdParse cmds s (CString.ofBuffer (buff ++ [0]))).andThen fun s => ⟨s, [], some EOK⟩
    | .ok (c :: cs) =>
      let offs := offs + (c :: cs).length
      if c = newline ∨ c = 0 then
        (cmdParse cmds s (CString.ofBuffer (buff ++ [0]))).andThen fun s =>
          if c = 0 then ⟨s, [], some EOK⟩ else callLoop h fuel s offs []
      else if buff.length = SIZE_CMD_ARG_LINE - 1 then ⟨s, [], some (-ENOMEM)⟩
      else callLoop h fuel s offs (buff ++ [c])

/-- `cmd_call`. A script with another magic is skipped without an error. -/
def cmdCall (fuel : Nat) (s : σ) : List CString → Outcome σ
  | [_, dev, file, magic] =>
    match files.phfsOpen s dev file with
    | .error res => ⟨s, [], some res⟩
    | .ok h =>
      match files.phfsRead s h 0 SIZE_MAGIC_NB with
      | .error len => ⟨s, [], some len⟩
      | .ok buff =>
        if buff.length ≠ SIZE_MAGIC_NB then ⟨s, [], some (- EIO)⟩
        else if CString.ofBuffer (buff ++ [0]) ≠ magic then ⟨s, [], some EOK⟩
        else callLoop cmds files h fuel s buff.length []
  | _ => ⟨s, [], some (-EINVAL)⟩

end Call
end Plo.Cmds
