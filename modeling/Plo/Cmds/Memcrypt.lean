import Plo.Base.Bytes
import Plo.Base.Overlay
import Plo.Cmds.Kernel
import Plo.Lib.GetoptSpec

/-!
The command that sets up memory encryption. A key or an initial value is given as
digits, or by where it is read from when all arguments are known: fuses, a device, or
the random generator, which is a device too. Words have 32 bits. What the devices and
the fuses answer may depend on all that was asked of them before; what is printed is
left out.
-/
namespace Plo.Cmds.Memcrypt
open Lib

/-- `MEMCRYPT_MAX_KEYSIZE`. -/
abbrev maxKeySize : Nat := 64

def DEV_CRYP_STORAGE : BitVec 32 := 9
def DEV_RNG : BitVec 32 := 10

inductive Algo
  | none
  | aes128
  | noekeon
  | aes256
  deriving DecidableEq

inductive BufferType
  | invalid
  | explicit
  | otp
  | device
  deriving DecidableEq

/-- `cmd_memcrypt_buffer_t`. -/
structure Buffer where
  type : BufferType
  major : BitVec 32
  minor : BitVec 32
  offset : BitVec 32
  size : BitVec 32
  data : Nat → UInt8

/-- The arguments of the control call that are numbers. -/
structure Args where
  start : BitVec 32
  stop : BitVec 32
  algo : Algo
  mode : BitVec 32

structure Params where
  major : BitVec 32
  minor : BitVec 32
  args : Args
  key : Buffer
  iv : Buffer

def Buffer.zeroed : Buffer := ⟨.invalid, 0, 0, 0, 0, fun _ => 0⟩

def Params.zeroed : Params := ⟨0, 0, ⟨0, 0, .none, 0⟩, .zeroed, .zeroed⟩

section Strings

/-- `cmd_memcrypt_consumePrefix`: the string behind the prefix. -/
def consumePrefix (arg : CString) (start : List UInt8) : Option CString :=
  if start <+: arg.bytes then some (.ofBuffer (arg.bytes.drop start.length)) else none

/-- `cmd_memcrypt_consumeNumber`: the number and the string behind the character that
ends it; no character stands for `-1`. -/
def consumeNumber (arg : CString) (endChar : Option UInt8) : Option (BitVec 32 × CString) :=
  match (strtoul arg 0 : BitVec 32 × List UInt8) with
  | (out, rest) =>
    match endChar with
    | none => if rest.length = arg.bytes.length then none else some (out, .ofBuffer rest)
    | some c =>
      if rest.length = arg.bytes.length ∨ rest.headD 0 ≠ c then none
      else some (out, .ofBuffer rest.tail)

def consumeDevice (arg : CString) : Option (BitVec 32 × BitVec 32 × CString) := do
  let (major, arg) ← consumeNumber arg (some '.'.toUInt8)
  let (minor, arg) ← consumeNumber arg none
  return (major, minor, arg)

/-- The string behind the prefix that is allowed in front of digits. -/
def withoutPrefix (string : CString) : List UInt8 :=
  if string.bytes.getD 0 0 = 0x30 ∧ string.bytes.getD 1 0 ||| 0x20 = 0x78 then string.bytes.drop 2
  else string.bytes

/-- The loop of `cmd_memcrypt_getHexBuffer`: the bytes that are stored, and whether it
came to the end of the string. -/
def hexPairs : List UInt8 → List UInt8 × Bool
  | c :: c' :: string =>
    match (strtoul (.ofBuffer [c, c', 0]) 16 : BitVec 32 × List UInt8) with
    | (result, rest) =>
      if rest ≠ [] ∨ result.toNat > 255 then ([], false)
      else (UInt8.ofNat result.toNat :: (hexPairs string).1, (hexPairs string).2)
  | _ => ([], true)

/-- `cmd_memcrypt_getHexBuffer`: what it returns and the bytes it stores. -/
def getHexBuffer (string : CString) (maxSize : Nat) : Int × List UInt8 :=
  let string := withoutPrefix string
  if string.length = 0 ∨ string.length % 2 ≠ 0 ∨ string.length / 2 > maxSize then (-EINVAL, [])
  else
    match hexPairs string with
    | (out, true) => ((string.length / 2 : Nat), out)
    | (out, false) => (-EINVAL, out)

end Strings

section Parse

def parseEncr (arg : CString) (params : Params) : Except Int Params :=
  let cipher : Option (Algo × CString) :=
    ((consumePrefix arg "aes128:".toUTF8.toList).map (Algo.aes128, ·)).or
      (((consumePrefix arg "aes256:".toUTF8.toList).map (Algo.aes256, ·)).or
        ((consumePrefix arg "noekeon:".toUTF8.toList).map (Algo.noekeon, ·)))
  match cipher with
  | none => .error CMD_EXIT_FAILURE
  | some (algo, arg) =>
    match consumeNumber arg (some 0) with
    | none => .error CMD_EXIT_FAILURE
    | some (mode, _) => .ok { params with args := { params.args with algo := algo, mode := mode } }

/-- The offset and the size at the end of a description, or the part that is wrong. -/
def parsePlace (arg : CString) (buf : Buffer) : Except String Buffer :=
  match consumeNumber arg (some ':'.toUInt8) with
  | none => .error "offset"
  | some (offset, arg) =>
    match consumeNumber arg (some 0) with
    | none => .error "size"
    | some (size, _) => .ok { buf with offset := offset, size := size }

/-- `cmd_memcrypt_parseBuffer`: the buffer, or the part of the description that is wrong. -/
def parseBuffer (arg : CString) (buf : Buffer) : Except String Buffer :=
  match consumePrefix arg "x:".toUTF8.toList with
  | some arg =>
    match getHexBuffer arg maxKeySize with
    | (ret, out) =>
      if ret < 0 then .error "hex string"
      else
        .ok { buf with
          type := .explicit
          size := BitVec.ofInt 32 ret
          data := overlay buf.data 0 out }
  | none =>
    match consumePrefix arg "p:".toUTF8.toList with
    | some arg => parsePlace arg { buf with type := .otp }
    | none =>
      match consumePrefix arg "d:".toUTF8.toList with
      | some arg =>
        match consumeDevice arg with
        | none => .error "device"
        | some (major, minor, arg) =>
          if arg.bytes.headD 0 ≠ ':'.toUInt8 then .error "offset"
          else
            parsePlace (.ofBuffer arg.bytes.tail)
              { buf with type := .device, major := major, minor := minor }
      | none =>
        match consumePrefix arg "r:".toUTF8.toList with
        | some arg =>
          match consumeNumber arg (some 0) with
          | none => .error "size"
          | some (size, _) =>
            .ok { buf with
              type := .device
              major := DEV_RNG
              minor := 0
              offset := 0
              size := size }
        | none => .error "buffer type"

/-- The parameters with the flags of the options that were seen. -/
structure Parsed where
  params : Params
  haveDev : Bool
  haveEncr : Bool
  haveKey : Bool

/-- `d:p:k:i:h`. -/
def options : OptSpec where
  leading := false
  opts :=
    [⟨'d'.toUInt8, .required, rfl⟩, ⟨'p'.toUInt8, .required, rfl⟩, ⟨'k'.toUInt8, .required, rfl⟩,
      ⟨'i'.toUInt8, .required, rfl⟩, ⟨'h'.toUInt8, .flag, rfl⟩]

/-- The cases of `cmd_memcrypt_parseArgs`. -/
def parseOption (p : Parsed) (opt : UInt8) (optarg : CString) : Except Int Parsed :=
  if opt = 'd'.toUInt8 then
    match consumeDevice optarg with
    | none => .error CMD_EXIT_FAILURE
    | some (major, minor, arg) =>
      if arg.bytes ≠ [] then .error CMD_EXIT_FAILURE
      else
        .ok { p with params := { p.params with major := major, minor := minor }, haveDev := true }
  else if opt = 'p'.toUInt8 then
    match parseEncr optarg p.params with
    | .error ret => .error ret
    | .ok params => .ok { p with params := params, haveEncr := true }
  else if opt = 'k'.toUInt8 then
    match parseBuffer optarg p.params.key with
    | .error _ => .error CMD_EXIT_FAILURE
    | .ok key => .ok { p with params := { p.params with key := key }, haveKey := true }
  else if opt = 'i'.toUInt8 then
    match parseBuffer optarg p.params.iv with
    | .error _ => .error CMD_EXIT_FAILURE
    | .ok iv => .ok { p with params := { p.params with iv := iv } }
  else .error CMD_EXIT_FAILURE

/-- The argument that the case of an option looks at, if there is one. -/
def optionArgument (opt : UInt8) (optarg : Option (List UInt8)) : Option CString :=
  if takesArgument (options.lookup opt) then optarg.map .ofBuffer else some (.ofBuffer [])

variable (argv : List CString)

/-- The loop over the options, in at most the given number of turns; it has no value
when it takes more, or when an option's argument is not there. -/
def parseOptions : Nat → Parsed → GetoptState → Option (Except Int (Parsed × GetoptState))
  | 0, _, _ => none
  | turns + 1, p, s => do
    let (call, s) ← getopt argv options.text s
    match call.ret with
    | none => return .ok (p, s)
    | some opt =>
      match parseOption p opt (← optionArgument opt s.optarg) with
      | .error ret => return .error ret
      | .ok p => parseOptions turns p s

/-- Every turn but the last takes a character of the arguments. -/
def optionTurns : Nat := (argv.map fun arg => arg.bytes.length).sum + 1

def parseRegion (params : Params) (arg : CString) : Except Int Params :=
  match consumeNumber arg (some ':'.toUInt8) with
  | none => .error CMD_EXIT_FAILURE
  | some (start, arg) =>
    match consumeNumber arg (some 0) with
    | none => .error CMD_EXIT_FAILURE
    | some (stop, _) =>
      .ok { params with args := { params.args with start := start, stop := stop } }

def parseArgs : Option (Except Int Params) := do
  match ← parseOptions argv (optionTurns argv) ⟨.zeroed, false, false, false⟩ getoptReset with
  | .error ret => return .error ret
  | .ok (p, s) =>
    if ¬(p.haveDev ∧ p.haveEncr ∧ p.haveKey) then return .error CMD_EXIT_FAILURE
    else if argv.length < s.optind + 1 then return .error CMD_EXIT_FAILURE
    else return parseRegion p.params (← argv[s.optind]?)

end Parse

/-- A read that does not fail returns the number of bytes it has stored. -/
structure ReadAnswer where
  ret : Int
  stored : List UInt8
  stored_length : 0 ≤ ret → stored.length = ret.toNat

/-- What is set up: the numbers, the key, and the initial value with its size. -/
structure Setup where
  major : BitVec 32
  minor : BitVec 32
  args : Args
  key : Nat → UInt8
  iv : Option (Nat → UInt8)
  ivSize : BitVec 32

/-- The devices and the fuses, whose answers depend on a state of their own. A device
stores no more than it is asked for. -/
structure Devices (σ : Type) where
  devsCheck : σ → BitVec 32 → BitVec 32 → Int
  /-- The device, the offset and the length. -/
  devsRead : σ → BitVec 32 → BitVec 32 → BitVec 32 → Nat → ReadAnswer × σ
  devsRead_fits : ∀ s major minor offs len,
    (devsRead s major minor offs len).1.stored.length ≤ len
  otpRead : σ → BitVec 32 → (Int × BitVec 32) × σ
  /-- `DEV_CONTROL_MEMCRYPT`. -/
  memcrypt : σ → Setup → Int × σ

section Read
variable {σ : Type} (devs : Devices σ)

def wordBytes (val : BitVec 32) : List UInt8 := (List.range 4).map (wordByte val)

/-- The loop of `cmd_memcrypt_readOtpBuffer` over the fuses that are left. -/
def readOtpLoop : Nat → σ → BitVec 32 → (Nat → UInt8) → Nat → (Int × (Nat → UInt8)) × σ
  | 0, s, _, out, _ => ((EOK, out), s)
  | fuses + 1, s, fuse, out, i =>
    match devs.otpRead s fuse with
    | ((ret, val), s) =>
      if ret < 0 then ((ret, out), s)
      else readOtpLoop fuses s (fuse + 1) (overlay out i (wordBytes val)) (i + 4)

def readOtpBuffer (s : σ) (fuse : BitVec 32) (out : Nat → UInt8) (keysize : Nat) :
    (Int × (Nat → UInt8)) × σ :=
  if keysize % 4 ≠ 0 then ((-EINVAL, out), s) else readOtpLoop devs (keysize / 4) s fuse out 0

/-- `cmd_memcrypt_readBuffer`. -/
def readBuffer (s : σ) (buf : Buffer) (expectedSize : Nat) : (Int × Buffer) × σ :=
  if expectedSize ≠ 0 ∧ buf.size.toNat ≠ expectedSize then ((CMD_EXIT_FAILURE, buf), s)
  else if buf.size.toNat > maxKeySize then ((CMD_EXIT_FAILURE, buf), s)
  else
    match buf.type with
    | .explicit => ((CMD_EXIT_SUCCESS, buf), s)
    | .otp =>
      match readOtpBuffer devs s buf.offset buf.data buf.size.toNat with
      | ((ret, data), s) =>
        if ret < 0 then ((CMD_EXIT_FAILURE, { buf with data := data }), s)
        else ((CMD_EXIT_SUCCESS, { buf with data := data }), s)
    | .device =>
      match devs.devsRead s buf.major buf.minor buf.offset buf.size.toNat with
      | (answer, s) =>
        if answer.ret < 0 then
          ((CMD_EXIT_FAILURE, { buf with data := overlay buf.data 0 answer.stored }), s)
        else ((CMD_EXIT_SUCCESS, { buf with data := overlay buf.data 0 answer.stored }), s)
    | .invalid => ((CMD_EXIT_FAILURE, buf), s)

/-- The size of the key for a cipher. -/
def Algo.keySize : Algo → Option Nat
  | .aes128 => some 16
  | .aes256 => some 32
  | .noekeon => some 16
  | .none => Option.none

/-- What the command returns, and what it has set up. -/
structure Outcome (σ : Type) where
  ret : Int
  setup : Option Setup
  state : σ

/-- The control call at the end of `_cmd_memcrypt`. -/
def configure (s : σ) (setup : Setup) : Outcome σ :=
  match devs.memcrypt s setup with
  | (ret, s) => ⟨if ret < 0 then CMD_EXIT_FAILURE else CMD_EXIT_SUCCESS, some setup, s⟩

/-- `_cmd_memcrypt` from the initial value on. -/
def setupIv (s : σ) (params : Params) (key : Buffer) : Outcome σ :=
  if params.iv.type = .invalid then
    configure devs s ⟨params.major, params.minor, params.args, key.data, none, 0⟩
  else
    match readBuffer devs s params.iv 0 with
    | ((ret, iv), s) =>
      if ret ≠ CMD_EXIT_SUCCESS then ⟨CMD_EXIT_FAILURE, none, s⟩
      else
        configure devs s ⟨params.major, params.minor, params.args, key.data, some iv.data, iv.size⟩

/-- `_cmd_memcrypt` from the parsed arguments on. -/
def setupParams (s : σ) (params : Params) : Outcome σ :=
  if params.major ≠ DEV_CRYP_STORAGE then ⟨-EINVAL, none, s⟩
  else if devs.devsCheck s params.major params.minor < 0 then ⟨-EINVAL, none, s⟩
  else
    match params.args.algo.keySize with
    | none => ⟨CMD_EXIT_FAILURE, none, s⟩
    | some keySize =>
      match readBuffer devs s params.key keySize with
      | ((ret, key), s) =>
        if ret ≠ CMD_EXIT_SUCCESS then ⟨CMD_EXIT_FAILURE, none, s⟩
        else setupIv devs s params key

/-- `cmd_memcrypt`, from parameters that are zero. -/
def cmdMemcrypt (s : σ) (argv : List CString) : Option (Outcome σ) := do
  match ← parseArgs argv with
  | .error _ => return ⟨CMD_EXIT_FAILURE, none, s⟩
  | .ok params => return setupParams devs s params

end Read

end Plo.Cmds.Memcrypt
