import Plo.Base.Window
import Plo.Cmds.Kernel
import Plo.Lib.Strtoul
import Plo.Phfs.Aliases

/-!
The command that copies between devices. Each side is a device with a file, or with an
offset and a size, which is decided by whether the second argument is a number. The loop
reads a chunk into a buffer and writes it until the device has taken all of it. Addresses
are as wide as a size, and the memory of a device is a ring of them; what the devices
answer is given turn by turn. The outcome of the command is then that of an alias for
what was copied.
-/
namespace Plo.Cmds
open Phfs Lib
variable {w : Nat}

/-- The size to copy: the smaller one that is given, or everything. -/
def copySize (srcSz dstSz : BitVec w) : BitVec w :=
  if srcSz = 0 ∧ dstSz = 0 then -1
  else if srcSz ≠ 0 ∧ dstSz ≠ 0 then if srcSz < dstSz then srcSz else dstSz
  else if srcSz > dstSz then srcSz else dstSz

/-- The answers in one turn of the loop: to the read of a chunk and to its writes. -/
structure Turn where
  read : Answer
  writes : List Answer

/-- The memory of the destination, how much was written, and the value of `res` unless a
device has not answered yet. -/
structure Copied (w : Nat) where
  mem : Nat → UInt8
  wsz : BitVec w
  res : Option Int

/-- The loop over the writes of a chunk, of which `chunk` bytes are left. Every write is
given the buffer from its start on. -/
def writeChunk (dstAddr : BitVec w) (buff : List UInt8) :
    Nat → Int → BitVec w → (Nat → UInt8) → List Answer → Copied w
  | 0, res, wsz, mem, _ => ⟨mem, wsz, some res⟩
  | _ + 1, _, wsz, mem, [] => ⟨mem, wsz, none⟩
  | _ + 1, _, wsz, mem, .error res :: _ => ⟨mem, wsz, some res⟩
  | chunk + 1, _, wsz, mem, .ok len :: writes =>
    writeChunk dstAddr buff (chunk + 1 - len) len (wsz + BitVec.ofNat w len)
      (ringWrite (2 ^ w) mem (dstAddr + wsz).toNat (buff.take len)) writes

section
variable (src : Nat → UInt8) (srcAddr dstAddr sz : BitVec w)

/-- The loop of `cmd_cpphfs2phfs`; `res` is the one of the last write, or of the read when
it gave nothing. -/
def copyTurns : BitVec w → BitVec w → (Nat → UInt8) → List Turn → Copied w
  | _, wsz, mem, [] => ⟨mem, wsz, none⟩
  | rsz, wsz, mem, turn :: turns =>
    match turn.read with
    | .error res => ⟨mem, wsz, some res⟩
    | .ok len =>
      let buff := window (2 ^ w) src (srcAddr + rsz).toNat len
      let rsz := rsz + BitVec.ofNat w len
      let written := writeChunk dstAddr buff len len wsz mem turn.writes
      match written.res with
      | none => written
      | some res =>
        if res < 0 then written
        else if sz - rsz > 0 ∧ res > 0 then copyTurns rsz written.wsz written.mem turns
        else { written with res := some written.wsz.toInt }

end

/-- `cmd_cpphfs2phfs` from a device that holds `src` to one that holds `mem`. -/
def cpphfs2phfs (src mem : Nat → UInt8) (srcAddr srcSz dstAddr dstSz : BitVec w)
    (turns : List Turn) : Copied w :=
  copyTurns src srcAddr dstAddr (copySize srcSz dstSz) 0 0 mem turns

def PHFS_OPEN_RDONLY : BitVec 32 := 0
def PHFS_OPEN_RDWR : BitVec 32 := 1
def PHFS_OPEN_CREATE : BitVec 32 := 2

/-- What `cmd_devParse` finds out about one side. -/
structure Side (w : Nat) where
  h : Handler
  offs : BitVec w
  sz : BitVec w
  file : Option CString

/-- How `cmd_devParse` ends: with the use of an argument that is not there, an error, or a
side and the index of the next argument. -/
inductive DevParsed (w : Nat)
  | null
  | error (res : Int)
  | ok (side : Side w) (argvID : Nat)

/-- `phfs_open` as it is called for one side: the device, the file, the flags. -/
abbrev Opener := CString → Option CString → BitVec 32 → Int × Handler

def openFlags (isDst : Bool) : BitVec 32 :=
  if isDst then PHFS_OPEN_CREATE ||| PHFS_OPEN_RDWR else PHFS_OPEN_RDONLY

/-- `cmd_devParse`. The index is compared with `argc` before the second argument of a side,
and not before the third. -/
def devParse (opener : Opener) (argv : List CString) (isDst : Bool) (argvID : Nat) : DevParsed w :=
  if argvID + 1 ≥ argv.length then .error (-EINVAL)
  else
    match argv[argvID]?, argv[argvID + 1]? with
    | some dev, some arg =>
      let (offs, endptr) : BitVec w × List UInt8 := strtoul arg 0
      if endptr ≠ [] then
        let (res, h) := opener dev (some arg) (openFlags isDst)
        if res < 0 then .error res else .ok ⟨h, 0, 0, some arg⟩ (argvID + 2)
      else
        match argv[argvID + 2]? with
        | none => .null
        | some size =>
          let (sz, endptr) : BitVec w × List UInt8 := strtoul size 0
          if endptr ≠ [] then .error (-EINVAL)
          else
            let (res, h) := opener dev none 0
            if res < 0 then .error res else .ok ⟨h, offs, sz, none⟩ (argvID + 3)
    | _, _ => .null

/-- How the arguments of `cmd_copy` are taken. -/
inductive CopyArgs (w : Nat)
  | null
  | rejected
  | accepted (src dst : Side w) (argvID : Nat)

def copyArgs (opener : Bool → Opener) (argv : List CString) : CopyArgs w :=
  if argv.length < 5 then .rejected
  else
    match devParse (w := w) (opener false) argv false 1 with
    | .null => .null
    | .error _ => .rejected
    | .ok src argvID =>
      match devParse (w := w) (opener true) argv true argvID with
      | .null => .null
      | .error _ => .rejected
      | .ok dst argvID => .accepted src dst argvID

/-- What the devices do during a copy: the answers of the server to the opening of each
side, what is behind a handler, and the turns of the loop. -/
structure CopyDevices where
  phoenixdOpen : Bool → Option CString → BitVec 32 → BitVec 32 → BitVec 32 → Int
  content : Handler → Nat → UInt8
  turns : List Turn

/-- `cmd_copy`: the tables it leaves, and its result unless it does not return. `h` is what
the handlers held before. -/
def cmdCopy (devices : CopyDevices) (h : Handler) (s : Tables w) (argv : List CString) :
    Tables w × Option Int :=
  match copyArgs (w := w) (fun isDst dev file flags =>
      phfsOpen (devices.phoenixdOpen isDst) s dev file flags h) argv with
  | .null => (s, none)
  | .rejected => (s, some CMD_EXIT_FAILURE)
  | .accepted src dst _ =>
    match (cpphfs2phfs (devices.content src.h) (devices.content dst.h) src.offs src.sz dst.offs
        dst.sz devices.turns).res with
    | none => (s, none)
    | some res =>
      if res < 0 then (s, some CMD_EXIT_FAILURE)
      else
        let (s, res) := aliasReg s (if dst.file = none then src.file else dst.file) dst.offs
          (BitVec.ofInt w res)
        (s, some (if res < 0 then CMD_EXIT_FAILURE else CMD_EXIT_SUCCESS))

/-- How much the loop asks for. -/
def chunkSize (sz rsz : BitVec w) : Nat := min SIZE_MSG_BUFF (sz - rsz).toNat

/-- Writes of a chunk, each an error or for at least one byte and at most what is left. -/
def WritesFit : Nat → List Answer → Prop
  | 0, writes => writes = []
  | _ + 1, [] => True
  | _ + 1, .error res :: _ => res < 0
  | chunk + 1, .ok len :: writes =>
    0 < len ∧ len ≤ chunk + 1 ∧ WritesFit (chunk + 1 - len) writes

/-- The turns of one call, each with a read that is an error or at most what was asked for;
the last one is the one after which the loop ends. -/
def TurnsFit (sz : BitVec w) : BitVec w → List Turn → Prop
  | _, [] => True
  | rsz, turn :: turns =>
    match turn.read with
    | .error res => res < 0
    | .ok len =>
      len ≤ chunkSize sz rsz ∧ WritesFit len turn.writes ∧
        if sz - (rsz + BitVec.ofNat w len) > 0 ∧ 0 < len then
          TurnsFit sz (rsz + BitVec.ofNat w len) turns
        else turns = []

/-- A copy that returns `n ≥ 0` has stored the `n` bytes from the source, changed nothing
else, and `n` is the size that was asked for unless a read gave nothing. -/
def CopyRight (src mem : Nat → UInt8) (srcAddr dstAddr sz : BitVec w) (turns : List Turn)
    (copied : Copied w) : Prop :=
  ∀ n, copied.res = some n → 0 ≤ n →
    window (2 ^ w) copied.mem dstAddr.toNat n.toNat = window (2 ^ w) src srcAddr.toNat n.toNat ∧
      (∀ a, (∀ k, k < n.toNat → a ≠ (dstAddr.toNat + k) % 2 ^ w) → copied.mem a = mem a) ∧
      ((∀ turn ∈ turns, turn.read ≠ .ok 0) → n = sz.toNat)

end Plo.Cmds
