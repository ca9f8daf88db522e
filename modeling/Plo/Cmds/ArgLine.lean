import Plo.Base.Window
import Plo.Cmds.Cmd

/-!
`cmd_parseArgLine` with its buffers. The arguments are copied one behind the other, each
with a NUL, into a buffer of bytes, and pointers to them into a vector. Every byte and
slot that is written is noted, so that it can be said where the function writes.
-/
namespace Plo.Cmds

/-- What the function holds: the script from its pointer on, the offset of `buf` in the
buffer, the buffer, the vector with its offsets, and the bytes and slots written so far. -/
structure ArgLine where
  lines : List UInt8
  buf : Nat
  mem : Nat → UInt8
  argv : Nat → Option Nat
  argc : Nat
  bytes : List Nat
  slots : List Nat

namespace ArgLine

/-- `*buf++ = c` -/
def store (a : ArgLine) (c : UInt8) : ArgLine :=
  { a with mem := overlay a.mem a.buf [c], buf := a.buf + 1, bytes := a.buf :: a.bytes }

/-- `argv[i] = p`, where NULL is no offset. -/
def setSlot (a : ArgLine) (i : Nat) (p : Option Nat) : ArgLine :=
  { a with argv := fun k => if k = i then p else a.argv k, slots := i :: a.slots }

/-- The inner loop, on the script from `lines` on. -/
def copyArg (a : ArgLine) : List UInt8 → ArgLine
  | [] => { a with lines := [] }
  | c :: cs =>
    if isgraph c ∧ a.buf < SIZE_CMD_ARG_LINE then (a.store c).copyArg cs
    else { a with lines := c :: cs }

theorem copyArg_length_lines (a : ArgLine) (lines : List UInt8) :
    (a.copyArg lines).lines.length ≤ lines.length := by
  induction lines generalizing a with
  | nil => exact Nat.le_refl _
  | cons c cs ih =>
      simp only [copyArg]
      split
      · exact (ih _).trans (Nat.le_succ _)
      · exact Nat.le_refl _

@[simp] theorem copyArg_argc (a : ArgLine) (lines : List UInt8) :
    (a.copyArg lines).argc = a.argc := by
  induction lines generalizing a with
  | nil => rfl
  | cons c cs ih =>
      simp only [copyArg]
      split
      · exact ih _
      · rfl

/-- The end of a line: `argv[argc] = NULL`, and `argc` is returned. -/
def finish (a : ArgLine) : ArgLine × Int := (a.setSlot a.argc none, a.argc)

/-- `argv[argc++] = buf` -/
def pushSlot (a : ArgLine) : ArgLine := { a.setSlot a.argc (some a.buf) with argc := a.argc + 1 }

/-- A pointer to the argument, and its bytes. -/
def addArg (a : ArgLine) : ArgLine := a.pushSlot.copyArg a.lines

@[simp] theorem addArg_argc (a : ArgLine) : a.addArg.argc = a.argc + 1 := copyArg_argc _ _

/-- The outer loop: what it leaves, and what the function returns. -/
def loop (a : ArgLine) : ArgLine × Int :=
  match _h : a.lines with
  | [] => a.finish
  | c :: cs =>
    if isspace c then
      if isblank c then loop { a with lines := cs } else finish { a with lines := cs }
    else if a.argc + 1 ≥ SIZE_CMD_ARGV then (a, -EINVAL)
    else if a.addArg.buf ≥ SIZE_CMD_ARG_LINE then (a.addArg, -ENOMEM)
    else loop (a.addArg.store 0)
termination_by a.lines.length + (SIZE_CMD_ARGV - a.argc)
decreasing_by
  · rw [_h, List.length_cons]
    omega
  · have hlen : a.addArg.lines.length ≤ a.lines.length := copyArg_length_lines _ _
    simp only [store, addArg_argc]
    omega

/-- `cmd_parseArgLine` on buffers that hold anything. -/
def parse (mem : Nat → UInt8) (argv : Nat → Option Nat) (lines : List UInt8) : ArgLine × Int :=
  if lines = [] then (⟨[], 0, mem, argv, 0, [], []⟩, endOfScript)
  else loop ⟨lines, 0, mem, argv, 0, [], []⟩

/-- The bytes that the arguments take up in the buffer. -/
def image (args : List CString) : List UInt8 := args.flatMap fun arg => arg.bytes ++ [0]

theorem image_append (args args' : List CString) :
    image (args ++ args') = image args ++ image args' := List.flatMap_append

theorem image_cons (arg : CString) (args : List CString) :
    image (arg :: args) = arg.bytes ++ 0 :: image args := by
  simp [image]

theorem image_concat (args : List CString) (arg : CString) :
    image (args ++ [arg]) = image args ++ (arg.bytes ++ [0]) := by
  rw [image_append, image_cons]
  rfl

/-- The writes lie in the buffer and in the vector. -/
structure Inside (a : ArgLine) : Prop where
  bytes : ∀ i ∈ a.bytes, i < SIZE_CMD_ARG_LINE
  slots : ∀ i ∈ a.slots, i < SIZE_CMD_ARGV

/-- The buffer holds the arguments one behind the other, and the vector their offsets. -/
structure Holds (a : ArgLine) (args : List CString) : Prop where
  argc : a.argc = args.length
  buf : a.buf = (image args).length
  fits : a.buf ≤ SIZE_CMD_ARG_LINE
  mem : slice a.mem 0 a.buf = image args
  argv : ∀ i, i < args.length → a.argv i = some (image (args.take i)).length

/-- What the inner loop copies is the argument of the script. -/
theorem copyArg_spec (a : ArgLine) (lines : List UInt8) {arg : List UInt8}
    (harg : arg = (argument lines (SIZE_CMD_ARG_LINE - a.buf)).bytes) (hin : a.Inside) :
    (a.copyArg lines).lines = lines.drop arg.length ∧ (a.copyArg lines).buf = a.buf + arg.length ∧
      (a.copyArg lines).mem = overlay a.mem a.buf arg ∧ (a.copyArg lines).argv = a.argv ∧
      (a.copyArg lines).Inside := by
  induction lines generalizing a arg with
  | nil =>
      subst harg
      simp only [argument, List.takeWhile_nil, List.take_nil]
      exact ⟨rfl, rfl, (overlay_nil _ _).symm, rfl, hin.bytes, hin.slots⟩
  | cons c cs ih =>
      simp only [copyArg]
      split
      · rename_i hcopy
        have hroom : SIZE_CMD_ARG_LINE - a.buf = SIZE_CMD_ARG_LINE - (a.buf + 1) + 1 := by omega
        have harg' : arg = c :: (argument cs (SIZE_CMD_ARG_LINE - (a.buf + 1))).bytes := by
          rw [harg, hroom]
          simp only [argument, List.takeWhile_cons_of_pos hcopy.1, List.take_succ_cons]
        have hin' : (a.store c).Inside := by
          refine ⟨fun i hi => ?_, hin.slots⟩
          cases hi with
          | head => exact hcopy.2
          | tail _ hi => exact hin.bytes i hi
        obtain ⟨hlines, hbuf, hmem, hargv, hinside⟩ := ih (a.store c) rfl hin'
        rw [harg']
        refine ⟨hlines, ?_, ?_, hargv, hinside⟩
        · rw [hbuf, List.length_cons]
          simp only [store]
          omega
        · rw [hmem]
          exact (overlay_append a.mem a.buf [c] _).symm
      · rename_i hstop
        have harg' : arg = [] := by
          rw [harg]
          by_cases hgraph : isgraph c = true
          · have hfull : SIZE_CMD_ARG_LINE ≤ a.buf :=
              Nat.le_of_not_lt fun hlt => hstop ⟨hgraph, hlt⟩
            simp only [argument, Nat.sub_eq_zero_of_le hfull, List.take_zero]
          · simp only [argument, List.takeWhile_cons_of_neg hgraph, List.take_nil]
        rw [harg']
        exact ⟨rfl, rfl, (overlay_nil _ _).symm, rfl, hin.bytes, hin.slots⟩

/-- One turn of the outer loop that adds an argument. -/
theorem addArg_spec {a : ArgLine} {args : List CString} (hin : a.Inside) (hargs : a.Holds args)
    (hargc : ¬ a.argc + 1 ≥ SIZE_CMD_ARGV) {arg : CString}
    (harg : arg = argument a.lines (SIZE_CMD_ARG_LINE - a.buf)) :
    a.addArg.lines = a.lines.drop arg.bytes.length ∧ a.addArg.buf = a.buf + arg.bytes.length ∧
      a.addArg.Inside ∧ (a.addArg.buf < SIZE_CMD_ARG_LINE →
        (a.addArg.store 0).Inside ∧ (a.addArg.store 0).Holds (args ++ [arg])) := by
  have hpush : a.pushSlot.Inside := by
    refine ⟨hin.bytes, fun i hi => ?_⟩
    cases hi with
    | head => omega
    | tail _ hi => exact hin.slots i hi
  obtain ⟨hlines, hbuf, hmem, hargv, hinside⟩ := copyArg_spec a.pushSlot a.lines
    (congrArg CString.bytes harg) hpush
  refine ⟨hlines, hbuf, hinside, fun hroom => ⟨⟨fun i hi => ?_, hinside.slots⟩, ?_⟩⟩
  · cases hi with
    | head => exact hroom
    | tail _ hi => exact hinside.bytes i hi
  · have hlen : (image (args ++ [arg])).length = (image args).length + (arg.bytes.length + 1) := by
      rw [image_concat, List.length_append, List.length_append, List.length_singleton]
    have hbuf' : a.addArg.buf = a.buf + arg.bytes.length := hbuf
    refine ⟨?_, ?_, hroom, ?_, ?_⟩
    · simp only [store, addArg_argc, hargs.argc, List.length_append, List.length_singleton]
    · simp only [store, hbuf', hargs.buf, hlen]
      omega
    · have hstored : (a.addArg.store 0).mem = overlay a.mem (0 + a.buf) (arg.bytes ++ [0]) := by
        rw [Nat.zero_add, overlay_append]
        simp only [store, hbuf']
        rw [show a.addArg.mem = overlay a.mem a.buf arg.bytes from hmem]
      have hend : (a.addArg.store 0).buf = a.buf + (arg.bytes ++ [0]).length := by
        simp only [store, hbuf', List.length_append, List.length_singleton]
        omega
      rw [hstored, hend, slice_overlay_append, hargs.mem, image_concat]
    · intro i hi
      have hslot : (a.addArg.store 0).argv i = if i = a.argc then some a.buf else a.argv i :=
        congrFun hargv i
      rw [List.length_append, List.length_singleton] at hi
      rw [hslot, hargs.argc]
      split
      · rename_i heq
        rw [heq, List.take_left, hargs.buf]
      · rename_i hne
        rw [List.take_append_of_le_length (by omega), hargs.argv i (by omega)]

/-- The end of a line puts NULL behind the arguments. -/
theorem finish_spec {a : ArgLine} {args : List CString} (hin : a.Inside) (hargs : a.Holds args)
    (hargc : a.argc < SIZE_CMD_ARGV) :
    a.finish.1.Inside ∧ a.finish.2 = args.length ∧ a.finish.1.lines = a.lines ∧
      a.finish.1.Holds args ∧ a.finish.1.argv args.length = none := by
  refine ⟨⟨hin.bytes, fun i hi => ?_⟩, ?_, rfl, ⟨hargs.argc, hargs.buf, hargs.fits, hargs.mem, ?_⟩, ?_⟩
  · cases hi with
    | head => exact hargc
    | tail _ hi => exact hin.slots i hi
  · simp only [finish, hargs.argc]
  · intro i hi
    simp only [finish, setSlot, hargs.argc, if_neg (Nat.ne_of_lt hi), hargs.argv i hi]
  · simp only [finish, setSlot, hargs.argc, if_true]

/-- The function returns what the list of the arguments says, leaves them in its buffers, and
writes inside of them. -/
theorem loop_spec (a : ArgLine) {args : List CString} (hin : a.Inside) (hargs : a.Holds args)
    (hargc : a.argc < SIZE_CMD_ARGV) :
    a.loop.1.Inside ∧
      match parseArgs a.lines (SIZE_CMD_ARG_LINE - a.buf) args with
      | .error res => a.loop.2 = res
      | .ok (argv, rest) =>
        a.loop.2 = argv.length ∧ a.loop.1.lines = rest ∧ a.loop.1.Holds argv ∧
          a.loop.1.argv argv.length = none := by
  fun_induction loop a generalizing args with
  | case1 a h =>
      have hend := finish_spec hin hargs hargc
      rw [h, parseArgs]
      rw [h] at hend
      exact hend
  | case2 a c cs h hspace hblank ih =>
      rw [h, parseArgs, if_pos hspace, if_pos hblank]
      exact ih ⟨hin.bytes, hin.slots⟩ ⟨hargs.argc, hargs.buf, hargs.fits, hargs.mem, hargs.argv⟩ hargc
  | case3 a c cs h hspace hblank =>
      rw [h, parseArgs, if_pos hspace, if_neg hblank]
      have hin' : ({ a with lines := cs } : ArgLine).Inside := ⟨hin.bytes, hin.slots⟩
      exact finish_spec hin' ⟨hargs.argc, hargs.buf, hargs.fits, hargs.mem, hargs.argv⟩ hargc
  | case4 a c cs h hspace hfull =>
      rw [h, parseArgs, if_neg hspace, if_pos (by rw [← hargs.argc]; exact hfull)]
      exact ⟨hin, rfl⟩
  | case5 a c cs h hspace hargc' hfull =>
      obtain ⟨-, hbuf, hinside, -⟩ := addArg_spec hin hargs hargc' rfl
      rw [h] at hbuf
      rw [h, parseArgs, if_neg hspace, if_neg (by rw [← hargs.argc]; exact hargc')]
      rw [if_pos (by omega)]
      exact ⟨hinside, rfl⟩
  | case6 a c cs h hspace hargc' hroom ih =>
      obtain ⟨hlines, hbuf, -, hnext⟩ := addArg_spec hin hargs hargc' rfl
      obtain ⟨hin', hargs'⟩ := hnext (Nat.lt_of_not_le hroom)
      have hrest := ih hin' hargs' (by simp only [store, addArg_argc]; omega)
      have hleft : SIZE_CMD_ARG_LINE - (a.addArg.store 0).buf = SIZE_CMD_ARG_LINE - a.buf -
          (argument a.lines (SIZE_CMD_ARG_LINE - a.buf)).bytes.length - 1 := by
        simp only [store, hbuf]
        omega
      rw [show (a.addArg.store 0).lines = _ from hlines, hleft, h] at hrest
      rw [h] at hbuf
      rw [h, parseArgs, if_neg hspace, if_neg (by rw [← hargs.argc]; exact hargc')]
      rw [if_neg (by omega)]
      exact hrest

/-- The string that a pointer of the vector points to. -/
def stringAt (a : ArgLine) (p : Nat) : CString :=
  CString.ofBuffer (slice a.mem p (SIZE_CMD_ARG_LINE - p))

/-- The strings behind the vector are the arguments. -/
theorem Holds.stringAt {a : ArgLine} {args : List CString} (h : a.Holds args) {i : Nat}
    (hi : i < args.length) : ∃ p, a.argv i = some p ∧ a.stringAt p = args.get ⟨i, hi⟩ := by
  refine ⟨_, h.argv i hi, ?_⟩
  have hsplit : image args = image (args.take i) ++
      ((args.get ⟨i, hi⟩).bytes ++ 0 :: image (args.drop (i + 1))) := by
    conv_lhs => rw [← List.take_append_drop i args, image_append, List.drop_eq_getElem_cons hi,
      image_cons]
    rfl
  have hmem := slice_add a.mem 0 a.buf (SIZE_CMD_ARG_LINE - a.buf)
  rw [h.mem, Nat.add_sub_cancel' h.fits, Nat.zero_add] at hmem
  have hle : (image (args.take i)).length ≤ SIZE_CMD_ARG_LINE := by
    have hlen := congrArg List.length hsplit
    have := h.fits
    rw [List.length_append, ← h.buf] at hlen
    omega
  have htail := drop_slice a.mem 0 hle
  rw [Nat.zero_add, hmem, hsplit, List.append_assoc, List.drop_left,
    List.append_assoc, List.cons_append] at htail
  have hbytes := ofBuffer_append (args.get ⟨i, hi⟩).noNul
    (image (args.drop (i + 1)) ++ slice a.mem a.buf (SIZE_CMD_ARG_LINE - a.buf))
  rw [htail] at hbytes
  exact CString.ext hbytes

/-- `cmd_parseArgLine` is `parseArgLine`, with its arguments left in the buffers. -/
theorem parse_spec (mem : Nat → UInt8) (argv : Nat → Option Nat) (lines : List UInt8) :
    (ArgLine.parse mem argv lines).1.Inside ∧
      match parseArgLine lines with
      | .error res => (ArgLine.parse mem argv lines).2 = res
      | .ok (args, rest) =>
        (ArgLine.parse mem argv lines).2 = args.length ∧
          (ArgLine.parse mem argv lines).1.lines = rest ∧
          (ArgLine.parse mem argv lines).1.Holds args ∧
          (ArgLine.parse mem argv lines).1.argv args.length = none := by
  rw [ArgLine.parse, parseArgLine]
  have hin (ls : List UInt8) : (ArgLine.mk ls 0 mem argv 0 [] []).Inside :=
    ⟨List.forall_mem_nil _, List.forall_mem_nil _⟩
  split
  · exact ⟨hin [], rfl⟩
  · exact loop_spec _ (hin lines) ⟨rfl, rfl, Nat.zero_le _, rfl,
      fun i hi => absurd hi (Nat.not_lt_zero i)⟩ (Nat.zero_lt_succ 10)

end ArgLine

end Plo.Cmds
