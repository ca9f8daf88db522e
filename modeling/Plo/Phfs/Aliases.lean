import Plo.Base.Run
import Plo.Lib.Types

/-!
The two tables of phfs: devices and files, each under an alias. A new alias is
compared with the stored ones as it is given, and then stored as far as the field
holds it.
-/
namespace Plo.Phfs

abbrev SIZE_PHFS_HANDLERS : Nat := 8
abbrev SIZE_PHFS_ALIASES : Nat := 32

/-- A string in a field of `sz` bytes. -/
structure Alias (sz : Nat) where
  name : CString
  fits : name.bytes.length < sz
  deriving DecidableEq

/-- The bytes written to a field of `sz` bytes. The copy of a short alias includes
its NUL; another one is put behind it. -/
def aliasField (sz : Nat) (alias_ : CString) : List UInt8 :=
  let len := alias_.bytes.length
  (alias_.bytes ++ [0]).take (if len < sz - 1 then len + 1 else sz - 1) ++ [0]

theorem ofBuffer_aliasField (sz : Nat) (alias_ : CString) :
    (CString.ofBuffer (aliasField sz alias_)).bytes = alias_.bytes.take (sz - 1) := by
  simp only [aliasField]
  split
  · next hlt =>
    rw [List.take_of_length_le (by simp), List.append_assoc, List.take_of_length_le hlt.le]
    exact ofBuffer_append alias_.noNul _
  · next hge =>
    rw [List.take_append_of_le_length (by omega)]
    exact ofBuffer_append (fun h => alias_.noNul (List.mem_of_mem_take h)) _

def storeAlias {sz : Nat} (hsz : 0 < sz) (alias_ : CString) : Alias sz where
  name := CString.ofBuffer (aliasField sz alias_)
  fits := by
    rw [ofBuffer_aliasField, List.length_take]
    omega

inductive Prot
  | raw
  | phoenixd
  deriving DecidableEq

/-- `phfs_device_t` -/
structure Device where
  alias_ : Alias 8
  major : BitVec 32
  minor : BitVec 32
  prot : Prot

/-- `phfs_file_t` -/
structure File (w : Nat) where
  alias_ : Alias 34
  addr : BitVec w
  size : BitVec w

/-- `phfs_common`; the counters are the lengths of the lists. -/
structure Tables (w : Nat) where
  devices : List Device
  files : List (File w)
  devices_fit : devices.length ≤ SIZE_PHFS_HANDLERS
  files_fit : files.length ≤ SIZE_PHFS_ALIASES

variable {w : Nat}

def Tables.empty : Tables w := ⟨[], [], Nat.zero_le _, Nat.zero_le _⟩

def Tables.addDevice (s : Tables w) (pd : Device) (h : ¬ s.devices.length ≥ SIZE_PHFS_HANDLERS) :
    Tables w :=
  { s with
    devices := s.devices ++ [pd]
    devices_fit := by
      rw [List.length_append, List.length_singleton]
      omega }

def Tables.addFile (s : Tables w) (file : File w) (h : ¬ s.files.length ≥ SIZE_PHFS_ALIASES) :
    Tables w :=
  { s with
    files := s.files ++ [file]
    files_fit := by
      rw [List.length_append, List.length_singleton]
      omega }

def strRaw : CString := ⟨[0x72, 0x61, 0x77], by decide⟩
def strPhoenixd : CString := ⟨[0x70, 0x68, 0x6f, 0x65, 0x6e, 0x69, 0x78, 0x64], by decide⟩

def setProt (prot : Option CString) : Option Prot :=
  if prot = none ∨ prot = some strRaw then some .raw
  else if prot = some strPhoenixd then some .phoenixd
  else none

/-- The loop over a table: the index of the alias, or `-EINVAL`. -/
def aliasId (aliases : List CString) (alias_ : CString) : Int :=
  match aliases.findIdx? (alias_ = ·) with
  | some i => i
  | none => -EINVAL

def Tables.deviceNames (s : Tables w) : List CString := s.devices.map (·.alias_.name)
def Tables.fileNames (s : Tables w) : List CString := s.files.map (·.alias_.name)

def getHandlerId (s : Tables w) (alias_ : CString) : Int := aliasId s.deviceNames alias_
def getAliasId (s : Tables w) (alias_ : CString) : Int := aliasId s.fileNames alias_

/-- `devsCheck` tells whether a device exists. -/
def devReg (devsCheck : BitVec 32 → BitVec 32 → Int) (s : Tables w) (alias_ : Option CString)
    (major minor : BitVec 32) (prot : Option CString) : Tables w × Int :=
  match alias_ with
  | none => (s, -EINVAL)
  | some alias_ =>
    if h : s.devices.length ≥ SIZE_PHFS_HANDLERS then (s, -EINVAL)
    else if devsCheck major minor < 0 then (s, -EINVAL)
    else if getHandlerId s alias_ ≥ 0 then (s, -EINVAL)
    else
      match setProt prot with
      | none => (s, -EINVAL)
      | some prot =>
        (s.addDevice ⟨storeAlias (by decide) alias_, major, minor, prot⟩ h, EOK)

/-- What is found under an alias, or the error. -/
def devGet (s : Tables w) (alias_ : CString) : Except Int (BitVec 32 × BitVec 32 × Prot) :=
  match s.devices.find? (·.alias_.name = alias_) with
  | some pd => .ok (pd.major, pd.minor, pd.prot)
  | none => .error (- ENODEV)

def aliasReg (s : Tables w) (alias_ : Option CString) (addr size : BitVec w) : Tables w × Int :=
  match alias_ with
  | none => (s, -EINVAL)
  | some alias_ =>
    if h : s.files.length ≥ SIZE_PHFS_ALIASES then (s, -EINVAL)
    else if getAliasId s alias_ ≥ 0 then (s, -EINVAL)
    else (s.addFile ⟨storeAlias (by decide) alias_, addr, size⟩ h, EOK)

/-- `handler_t` -/
structure Handler where
  pd : BitVec 32
  id : BitVec 32

def PHFS_OPEN_RAWONLY : BitVec 32 := 0x80000000

/-- `phfs_open`: its result, and the handler as it leaves it. `phoenixdOpen` asks
the server. -/
def phfsOpen (phoenixdOpen : Option CString → BitVec 32 → BitVec 32 → BitVec 32 → Int)
    (s : Tables w) (alias_ : CString) (file : Option CString) (flags : BitVec 32)
    (handler : Handler) : Int × Handler :=
  let res := getHandlerId s alias_
  if res < 0 then (res, handler)
  else
    let handler := { handler with pd := BitVec.ofInt 32 res }
    match s.devices[handler.pd.toNat]? with
    | none => (EOK, handler)
    | some pd =>
      if flags &&& PHFS_OPEN_RAWONLY ≠ 0 ∧ pd.prot ≠ .raw then (- ENXIO, handler)
      else
        match pd.prot with
        | .phoenixd =>
          let res := phoenixdOpen file pd.major pd.minor flags
          if res < 0 then (res, handler) else (EOK, { handler with id := BitVec.ofInt 32 res })
        | .raw =>
          let handler := { handler with id := -1 }
          match file with
          | none => (EOK, handler)
          | some file =>
            let res := getAliasId s file
            if res < 0 then (res, handler) else (EOK, { handler with id := BitVec.ofInt 32 res })

def aliasAddrResolve (s : Tables w) (h : Handler) : Except Int (BitVec w) :=
  if h.id.toNat ≥ SIZE_PHFS_ALIASES then .error (-EINVAL)
  else
    match s.files[h.id.toNat]? with
    | none => .error (-EINVAL)
    | some file => .ok file.addr

end Plo.Phfs
