import Plo.Base.Bytes
import Plo.Lib.Types

/-!
The memory encryption of STM32. The registers of a peripheral keep what is stored in them and
are 0 after reset. A bit that the driver waits for comes up, and the peripheral puts the CRC of
a context key next to the mode of the context. The entries of the obfuscation table that are
used are recorded by their index.
-/
namespace Plo.Devices.Mce

def CIPHER_AES128 : BitVec 32 := 1
def CIPHER_NOEKEON : BitVec 32 := 2
def CIPHER_AES256 : BitVec 32 := 3

def MODE_STREAM : BitVec 32 := 1
def MODE_NBLOCK : BitVec 32 := 2
def MODE_FBLOCK : BitVec 32 := 3

/-- `mce_t`. -/
inductive Periph
  | mce1 | mce2 | mce3 | mce4
  deriving DecidableEq

/-- The first and the last address of `mce_setup[per].region`. -/
def Periph.region : Periph → BitVec 32 × BitVec 32
  | .mce1 => (0x90000000, 0x9fffffff)
  | .mce2 => (0x70000000, 0x7fffffff)
  | .mce3 => (0x80000000, 0x8fffffff)
  | .mce4 => (0x60000000, 0x6fffffff)

/-- The registers by their number, and the record of the driver in `mce_params`. -/
structure State where
  regs : Nat → BitVec 32
  initialized : Bool
  cipher : BitVec 8
  indexed : List Nat

/-- After reset, with a driver that was not called yet. -/
def reset : State := { regs := fun _ => 0, initialized := false, cipher := 0, indexed := [] }

def State.store (s : State) (reg : Nat) (v : BitVec 32) : State :=
  { s with regs := Function.update s.regs reg v }

@[simp] theorem store_self (s : State) (reg : Nat) (v : BitVec 32) :
    (s.store reg v).regs reg = v := by
  simp [State.store]

theorem store_other (s : State) {reg r : Nat} (v : BitVec 32) (hr : r ≠ reg) :
    (s.store reg v).regs r = s.regs r := by
  simp [State.store, hr]

def mceCr : Nat := 0x0
def mceSr : Nat := 0x1
def mceRegcr (reg : Nat) : Nat := 0x10 + 4 * reg
def mceSaddr (reg : Nat) : Nat := 0x11 + 4 * reg
def mceEaddr (reg : Nat) : Nat := 0x12 + 4 * reg
def mceMkeyr1 : Nat := 0x80
def mceFmkeyr1 : Nat := 0x88

/-- The registers of a context: its configuration, and the first of its nonce and its key. -/
def mceCccfgr (ctxid : Nat) : Nat := if ctxid = 1 then 0x90 else 0x97
def mceCcnr0 (ctxid : Nat) : Nat := if ctxid = 1 then 0x91 else 0x98
def mceCckeyr0 (ctxid : Nat) : Nat := if ctxid = 1 then 0x93 else 0x9a

def MODE_MASK : BitVec 32 := 3
def CR_CIPHERSEL_MASK : BitVec 32 := 3#32 <<< 4
def CR_MKLOCK : BitVec 32 := 1#32 <<< 1
def CR_GLOCK : BitVec 32 := 1
def SR_MKVALID : BitVec 32 := 1
def SR_FMKVALID : BitVec 32 := 1#32 <<< 2
def REGCR_BREN : BitVec 32 := 1
def REGCR_CTXID_MASK : BitVec 32 := 3#32 <<< 9
def REGCR_ENC_MASK : BitVec 32 := 3#32 <<< 14
def CCCFGR_VERSION_MASK : BitVec 32 := 0xffff#32 <<< 16
def CCCFGR_CRC_MASK : BitVec 32 := 0xff#32 <<< 8
def CCCFGR_KEYLOCK : BitVec 32 := 1#32 <<< 2
def CCCFGR_CCLOCK : BitVec 32 := 1#32 <<< 1
def CCCFGR_CCEN : BitVec 32 := 1

/-- `crc8_consumeWord`. -/
def crc8ConsumeWord (data : BitVec 32) : BitVec 8 :=
  let poly := 0x07#32 <<< 24
  let crc := (List.range 32).foldl
    (fun (crc : BitVec 32) _ =>
      if crc &&& 0x80000000 ≠ 0 then (crc <<< 1) ^^^ poly else crc <<< 1) data
  (crc >>> 24).setWidth 8 ^^^ 0x55

def obfuscation : List (BitVec 8) := [0xaa, 0x03, 0x18, 0xc0]

/-- Word `i` of a key. -/
def keyWord (key : Nat → UInt8) (i : Nat) : BitVec 32 := leWord fun k => key (4 * i + k)

/-- The turns of the loop of `mce_storeKey` from word `i` on. An entry behind the table has no
value that is known. -/
def storeKeyLoop (reg : Nat) (key : Nat → UInt8) : Nat → Nat → BitVec 8 → State → State × BitVec 8
  | 0, _, crc, s => (s, crc)
  | n + 1, i, crc, s =>
    let regVal := keyWord key i
    let s := s.store (reg + i) regVal
    let entry := (obfuscation.getD i 0).setWidth 32
    let s := { s with indexed := s.indexed ++ [i] }
    let crc := crc.setWidth 32
    let regVal := regVal ^^^ (crc ||| (entry <<< 8) ||| (crc <<< 16) ||| (entry <<< 24))
    storeKeyLoop reg key n (i + 1) (crc8ConsumeWord regVal) s

/-- `mce_storeKey`, with a size in bytes. -/
def storeKey (s : State) (reg : Nat) (key : Nat → UInt8) (keysize : Nat) : State × BitVec 8 :=
  storeKeyLoop reg key (keysize / 4) 0 0x55 s

/-- `mce_waitBusy`: the flag comes up. -/
def waitBusy (s : State) (reg : Nat) (flag : BitVec 32) : State :=
  s.store reg (s.regs reg ||| flag)

/-- A key that is written unless the flag says that there is a valid one. -/
def storeMasterKey (s : State) (reg : Nat) (flag : BitVec 32) (keysize : Nat) :
    Option (Nat → UInt8) → State
  | none => s
  | some key =>
    if s.regs mceSr &&& flag = 0 then waitBusy (storeKey s reg key keysize).1 mceSr flag else s

/-- The first part of `mce_configurePerInternal`: a cipher is selected once. -/
def selectCipher (s : State) (cipher : BitVec 32) : State :=
  if s.cipher = 0 then
    { s.store mceCr ((s.regs mceCr &&& ~~~CR_CIPHERSEL_MASK) ||| (cipher <<< 4)) with
      cipher := cipher.setWidth 8 }
  else s

/-- `mce_configurePerInternal`, which does not fail. -/
def configurePer (s : State) (cipher : BitVec 32) (mk fmk : Option (Nat → UInt8)) : State :=
  let s := selectCipher s cipher
  let keysize := if cipher = CIPHER_AES256 then 32 else 16
  let s := storeMasterKey s mceMkeyr1 SR_MKVALID keysize mk
  storeMasterKey s mceFmkeyr1 SR_FMKVALID keysize fmk

/-- The peripheral puts the CRC of the key that was stored into its field. -/
def crcUp (s : State) (cccfgr : Nat) (crc : BitVec 8) : State :=
  s.store cccfgr ((s.regs cccfgr &&& ~~~CCCFGR_CRC_MASK) ||| (crc.setWidth 32 <<< 8))

/-- The part of `mce_configureCipherContextInternal` from the key of the context on. -/
def configureContextKey (s : State) (ctxid : Nat) (ctxkey : Option (Nat → UInt8)) : State × Int :=
  let cccfgr := mceCccfgr ctxid
  match ctxkey with
  | none => (waitBusy (s.store cccfgr (s.regs cccfgr ||| CCCFGR_CCEN)) cccfgr CCCFGR_CCEN, EOK)
  | some key =>
    let (s, crc) := storeKey s (mceCckeyr0 ctxid) key 16
    let s := crcUp s cccfgr crc
    if ((s.regs cccfgr >>> 8) &&& 0xff) ≠ crc.setWidth 32 then (s, - EIO)
    else (waitBusy (s.store cccfgr (s.regs cccfgr ||| CCCFGR_CCEN)) cccfgr CCCFGR_CCEN, EOK)

/-- `mce_configureCipherContextInternal`. -/
def configureCipherContext (s : State) (ctxid : Nat) (version : BitVec 16) (mode : BitVec 32)
    (nonce ctxkey : Option (Nat → UInt8)) : State × Int :=
  if ctxid ≠ 1 ∧ ctxid ≠ 2 then (s, -EINVAL)
  else if mode = MODE_STREAM ∧ nonce = none then (s, -EINVAL)
  else if mode ≠ MODE_STREAM ∧ nonce.isSome then (s, -EINVAL)
  else if s.regs (mceCccfgr ctxid) &&& CCCFGR_CCEN ≠ 0 then (s, -EINVAL)
  else
    let cccfgr := mceCccfgr ctxid
    let t := (s.regs cccfgr &&& ~~~(CCCFGR_VERSION_MASK ||| (MODE_MASK <<< 4))) ||| (mode <<< 4)
    let (s, t) :=
      match nonce with
      | none => (s, t)
      | some nonce =>
        ((storeKey s (mceCcnr0 ctxid) nonce 8).1, t ||| (version.setWidth 32 <<< 16))
    configureContextKey (s.store cccfgr t) ctxid ctxkey

/-- `mce_configureRegionInternal`. -/
def configureRegionInternal (per : Periph) (s : State) (reg : Nat) (mode : BitVec 32) (ctxid : Nat)
    (first last : BitVec 32) : State × Int :=
  if ctxid ≠ 0 ∧ ctxid ≠ 1 ∧ ctxid ≠ 2 then (s, -EINVAL)
  else if mode = MODE_STREAM ∧ ctxid = 0 then (s, -EINVAL)
  else if ctxid ≠ 0 ∧ (s.regs (mceCccfgr ctxid) >>> 4) &&& MODE_MASK ≠ mode then (s, -EINVAL)
  else if last < first then (s, -EINVAL)
  else if first < per.region.1 ∨ last > per.region.2 then (s, -EINVAL)
  else if first % 4096 ≠ 0 ∨ (last + 1) % 4096 ≠ 0 then (s, -EINVAL)
  else
    let t := s.regs (mceRegcr reg) &&& ~~~(REGCR_CTXID_MASK ||| REGCR_ENC_MASK)
    let t := t ||| (mode <<< 14) ||| (BitVec.ofNat 32 ctxid <<< 9)
    let s := s.store (mceRegcr reg) t
    let s := s.store (mceSaddr reg) first
    let s := s.store (mceEaddr reg) last
    (s.store (mceRegcr reg) (s.regs (mceRegcr reg) ||| REGCR_BREN), EOK)

/-- The bits of the argument of `mce_configureLockInternal`. -/
def GLOBALLOCK : BitVec 32 := 1
def MASTERLOCK : BitVec 32 := 1#32 <<< 1
def CTX1LOCK : BitVec 32 := 1#32 <<< 2
def CTX2LOCK : BitVec 32 := 1#32 <<< 3
def CTX1KEYLOCK : BitVec 32 := 1#32 <<< 4
def CTX2KEYLOCK : BitVec 32 := 1#32 <<< 5

def lockBit (lock bit : BitVec 32) (reg : Nat) (flag : BitVec 32) (s : State) : State :=
  if lock &&& bit ≠ 0 then s.store reg (s.regs reg ||| flag) else s

/-- `mce_configureLockInternal`. -/
def configureLock (s : State) (lock : BitVec 32) : State :=
  let s := lockBit lock CTX1KEYLOCK (mceCccfgr 1) CCCFGR_KEYLOCK s
  let s := lockBit lock CTX2KEYLOCK (mceCccfgr 2) CCCFGR_KEYLOCK s
  let s := lockBit lock CTX1LOCK (mceCccfgr 1) CCCFGR_CCLOCK s
  let s := lockBit lock CTX2LOCK (mceCccfgr 2) CCCFGR_CCLOCK s
  let s := lockBit lock MASTERLOCK mceCr CR_MKLOCK s
  lockBit lock GLOBALLOCK mceCr CR_GLOCK s

/-- The region and the arguments of a call; a pointer may be NULL. -/
structure Call where
  reg : Int
  start : BitVec 32
  end_ : BitVec 32
  algo : BitVec 32
  mode : BitVec 32
  key : Option (Nat → UInt8)
  iv : Option (Nat → UInt8)
  ivSize : BitVec 32

/-- `mce_validateParamsInternal`, for one of the peripherals. -/
def validateParams (s : State) (c : Call) (cipher : BitVec 32) : Int :=
  if c.reg < 0 ∨ c.reg ≥ 4 then -EINVAL
  else if cipher ≠ CIPHER_AES128 ∧ cipher ≠ CIPHER_AES256 ∧ cipher ≠ CIPHER_NOEKEON then -EINVAL
  else if c.mode ≠ MODE_STREAM ∧ c.mode ≠ MODE_NBLOCK ∧ c.mode ≠ MODE_FBLOCK then -EINVAL
  else if c.mode = MODE_STREAM ∧ cipher = CIPHER_AES256 then -EINVAL
  else if s.cipher ≠ 0 ∧ s.cipher.setWidth 32 ≠ cipher then -EINVAL
  else if c.start % 4096 ≠ 0 ∨ c.end_ % 4096 ≠ 0 then -EINVAL
  else EOK

/-- `DEV_MEMCRYPT_ALGO_AES128` to `DEV_MEMCRYPT_ALGO_AES256`, and the ciphers they stand for. -/
def cipherOf (algo : BitVec 32) : Option (BitVec 32) :=
  if algo = 1 then some CIPHER_AES128
  else if algo = 2 then some CIPHER_NOEKEON
  else if algo = 3 then some CIPHER_AES256
  else none

/-- The step of `mce_configureRegion` that sets up the context of the ciphers that have one. -/
def configureContext (s : State) (c : Call) (cipher : BitVec 32) : State × Int :=
  if cipher = CIPHER_AES128 ∨ cipher = CIPHER_NOEKEON then
    if c.mode = MODE_STREAM then
      if c.ivSize < 8 then (s, -EINVAL)
      else configureCipherContext s 1 0 c.mode c.iv c.key
    else if c.ivSize ≠ 0 then (s, -EINVAL)
    else configureCipherContext s 1 0 c.mode none c.key
  else (s, EOK)

/-- The steps of `mce_configureRegion` behind the checks of the parameters. -/
def configureSteps (per : Periph) (s : State) (c : Call) (cipher : BitVec 32) : State × Int :=
  let s := { s with initialized := true }
  let mk := if cipher = CIPHER_AES256 ∧ c.mode = MODE_NBLOCK then c.key else none
  let fmk := if cipher = CIPHER_AES256 ∧ c.mode = MODE_FBLOCK then c.key else none
  let s := configurePer s cipher mk fmk
  let (s, ret) := configureContext s c cipher
  if ret < 0 then (s, ret)
  else
    let (s, ret) := configureRegionInternal per s c.reg.toNat c.mode 1
      (per.region.1 + c.start) (per.region.1 + c.end_ - 1)
    if ret < 0 then (s, ret) else (configureLock s GLOBALLOCK, EOK)

/-- `mce_configureRegion`, for the device of one of the peripherals. -/
def configureRegion (per : Periph) (s : State) (c : Call) : State × Int :=
  match cipherOf c.algo with
  | none => (s, -EINVAL)
  | some cipher =>
    let ret := validateParams s c cipher
    if ret < 0 then (s, ret) else configureSteps per s c cipher

end Plo.Devices.Mce
