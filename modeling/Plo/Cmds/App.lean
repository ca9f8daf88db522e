import Plo.Base.Overlay
import Plo.Syspage.Progs

/-!
The commands that load a file and tell the kernel about it. `app` checks the ELF
header, allocates an entry in the map of the instructions, copies the file there
when the device is not mapped, links a program into the list and only then
resolves the names of its maps; `blob` does the same without maps. What `phfs`
answers is collected in a `Source`; a list of reads that ends early stands for a
device that has not answered yet.
-/
namespace Plo.Cmds
open Syspage
variable {w : Nat} {σ : Type}

/-- A result of `phfs_read`: the bytes stored, or a negative error. -/
abbrev ReadResult := Except Int (List UInt8)

/-- What a device answers to a read or a write: an error, or for how many bytes. -/
abbrev Answer := Except Int Nat

/-- What `phfs` answers for the file of a command. `stack` is what the header
held before it was read. -/
structure Source (w : Nat) where
  header : ReadResult
  stack : Nat → UInt8
  aliasAddr : Option (BitVec w)
  map : (addr sz : BitVec w) → (mode : Attrs) → (memaddr memsz : BitVec w) → Attrs → Int × BitVec w
  reads : List ReadResult
  header_neg : ∀ res, header = .error res → res < 0
  reads_neg : ∀ res, .error res ∈ reads → res < 0

def dev_isMappable : Int := 0
def dev_isNotMappable : Int := 1

/-- `cmd_cp2ent` from offset `offs` on: the bytes it stores one after the other
at the start of the entry, and its result unless it still waits. -/
def cp2ent (sz : BitVec w) : BitVec w → List ReadResult → List UInt8 × Option Int
  | offs, [] => ([], if offs < sz then none else some EOK)
  | offs, read :: reads =>
    if offs < sz then
      match read with
      | .error res => ([], some res)
      | .ok buff =>
        let (copied, res) := cp2ent sz (offs + BitVec.ofNat w buff.length) reads
        (buff ++ copied, res)
    else ([], some EOK)

def mapSep : UInt8 := ';'.toUInt8

/-- `cmd_mapsParse`: the buffer with a NUL in place of every separator, and the
number of names. -/
def mapsParse (maps : CString) : List UInt8 × Nat :=
  (maps.bytes.map (fun c => if c = mapSep then 0 else c) ++ [0], maps.bytes.count mapSep + 1)

/-- `cmd_mapsAdd2Prog`: the ids it stores, and its result. -/
def mapsAdd2Prog (s : Common w σ) : Nat → List UInt8 → List (BitVec 8) × Int
  | 0, _ => ([], EOK)
  | nb + 1, mapNames =>
    let name := CString.ofBuffer mapNames
    match mapNameResolve s name with
    | none => ([], -EINVAL)
    | some id =>
      let (ids, res) := mapsAdd2Prog s nb (mapNames.drop (name.bytes.length + 1))
      (id :: ids, res)

/-- The arguments of `cmd_appLoad`; its strings are shorter than memory. -/
structure AppReq (w : Nat) where
  size : BitVec w
  imaps : CString
  dmaps : CString
  argv : CString
  flags : BitVec 32
  imaps_fit : imaps.bytes.length + 1 < 2 ^ w
  dmaps_fit : dmaps.bytes.length + 1 < 2 ^ w

def AppReq.imapSz (req : AppReq w) : BitVec w := BitVec.ofNat w (mapsParse req.imaps).2

def AppReq.dmapSz (req : AppReq w) : BitVec w := BitVec.ofNat w (mapsParse req.dmaps).2

structure Place (w : Nat) where
  mapName : Option CString
  start : BitVec w
  copy : Bool

/-- Whether the device is mapped into the map `name`, and the entry that follows
from it. -/
def devicePlace (s : Common w σ) (src : Source w) (name : CString) (size : BitVec w)
    (mode : Attrs) (noCopy : Bool) : Except Int (Place w) :=
  match mapAttrResolve s name, mapRangeResolve s name with
  | some attr, some (start, end_) =>
    let offs := src.aliasAddr.getD 0
    let (res, addr) := src.map offs size mode start (end_ - start) attr
    if res < 0 then .error res
    else if res = dev_isMappable ∨ (res = dev_isNotMappable ∧ noCopy) then
      .ok ⟨none, addr + offs, false⟩
    else if res = dev_isNotMappable then .ok ⟨some name, -1, true⟩
    else .error (-ENOMEM)
  | _, _ => .error (-EINVAL)

/-- The part of `cmd_appLoad` before an entry is allocated. -/
def appPlace (s : Common w σ) (src : Source w) (req : AppReq w) : Except Int (Place w) :=
  match src.header with
  | .error res => .error res
  | .ok bytes =>
    let hdr := overlay src.stack 0 bytes
    if hdr 0 ≠ 0x7f ∨ hdr 1 ≠ 'E'.toUInt8 ∨ hdr 2 ≠ 'L'.toUInt8 ∨ hdr 3 ≠ 'F'.toUInt8 then
      .error (- EIO)
    else
      devicePlace s src (CString.ofBuffer (mapsParse req.imaps).1) req.size
        ⟨true, false, true, false, false, false⟩ (req.flags &&& flagSyspageNoCopy ≠ 0)

/-- An array of which the first cells were assigned. -/
def cells (n : Nat) (ids : List (BitVec 8)) : List (Option (BitVec 8)) :=
  ids.map some ++ (List.replicate n none).drop ids.length

/-- The ids of the maps and the range of the program linked last. -/
def appNames (s : Common w σ) (req : AppReq w) (entry : MapEnt w) (prog : Prog w) :
    Common w σ × Int :=
  let (imapNames, imapNb) := mapsParse req.imaps
  let (dmapNames, dmapNb) := mapsParse req.dmaps
  match mapsAdd2Prog s imapNb imapNames with
  | (ids, res) =>
    let prog := { prog with imaps := some (cells req.imapSz.toNat ids) }
    if res < 0 then (setProg s prog, res)
    else
      match mapsAdd2Prog s dmapNb dmapNames with
      | (ids, res) =>
        let prog := { prog with dmaps := some (cells req.dmapSz.toNat ids) }
        if res < 0 then (setProg s prog, res)
        else
          (setProg s { prog with
            imapSz := some req.imapSz, dmapSz := some req.dmapSz,
            start := some entry.start, end_ := some entry.end_ }, EOK)

def appMaps (p : Platform w σ) (s : Common w σ) (req : AppReq w) (entry : MapEnt w)
    (prog : Prog w) : Common w σ × Int :=
  match alloc p s req.imapSz with
  | none => (s, -ENOMEM)
  | some (_, s) =>
    let prog := { prog with imaps := some (cells req.imapSz.toNat []) }
    match alloc p (setProg s prog) req.dmapSz with
    | none => (setProg s prog, -ENOMEM)
    | some (_, s) =>
      appNames s req entry { prog with dmaps := some (cells req.dmapSz.toNat []) }

/-- The part of `cmd_appLoad` after the entry is there. -/
def appLink (p : Platform w σ) (s : Common w σ) (req : AppReq w) (entry : MapEnt w) :
    Common w σ × Int :=
  match progAdd p s req.argv req.flags with
  | (s, none) => (s, -ENOMEM)
  | (s, some prog) => appMaps p s req entry prog

/-- Allocates the entry, copies the file into it where it is asked to and goes on
with `link`. There is no result while the copying waits. -/
def loadEntry (p : Platform w σ) (s : Common w σ) (src : Source w) (size : BitVec w)
    (place : Place w) (link : Common w σ → MapEnt w → Common w σ × Option Int) :
    Common w σ × Option Int :=
  match entryAdd p s place.mapName place.start size p.sizePage with
  | (s, none) => (s, some (-ENOMEM))
  | (s, some entry) =>
    match if place.copy then (cp2ent (entry.end_ - entry.start) 0 src.reads).2 else some EOK with
    | none => (s, none)
    | some res => if res < 0 then (s, some res) else link s entry

def appLoad (p : Platform w σ) (s : Common w σ) (src : Source w) (req : AppReq w) :
    Common w σ × Option Int :=
  match appPlace s src req with
  | .error res => (s, some res)
  | .ok place =>
    loadEntry p s src req.size place fun s entry =>
      ((appLink p s req entry).1, some (appLink p s req entry).2)

structure BlobReq (w : Nat) where
  size : BitVec w
  name : CString
  map : CString

/-- `cmd_blobLoad`. It has no result when it goes on with the program that could
not be added. -/
def blobLoad (p : Platform w σ) (s : Common w σ) (src : Source w) (req : BlobReq w) :
    Common w σ × Option Int :=
  match devicePlace s src req.map req.size ⟨true, false, false, false, false, false⟩ false with
  | .error res => (s, some res)
  | .ok place =>
    loadEntry p s src req.size place fun s entry =>
      match progAdd p s req.name 0 with
      | (s, none) => (s, none)
      | (s, some prog) =>
        (setProg s { prog with
          imaps := none, imapSz := some 0, dmaps := none, dmapSz := some 0,
          start := some entry.start, end_ := some entry.end_ }, some EOK)

end Plo.Cmds
