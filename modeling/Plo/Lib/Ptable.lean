import Plo.Base.Bytes
import Plo.Lib.Strtoul

/-!
Partition tables. A table lies in memory as a header of 28 bytes, partition
records of 32 bytes each and four magic bytes. Memory is given by the offset from
the start of the table, so that what lies around it is part of the input too.
-/
namespace Plo.Lib

def crc32Bit (crc : BitVec 32) : BitVec 32 :=
  (crc >>> 1) ^^^ (if crc &&& 1 ≠ 0 then 0xedb88320 else 0)

/-- The variant of `lib_crc32` that goes bit by bit. -/
def crc32 (buf : List UInt8) (base : BitVec 32) : BitVec 32 :=
  buf.foldl (fun crc c => Nat.repeat crc32Bit 8 (crc ^^^ c.toBitVec.setWidth 32)) base

/-- `hal_strcmp` on strings of which the first ends within `n` bytes. -/
def strcmp : Nat → (Nat → UInt8) → (Nat → UInt8) → Int
  | 0, _, _ => 0
  | n + 1, s1, s2 =>
    if s1 0 = 0 then if s2 0 = 0 then 0 else -1
    else if s1 0 = s2 0 then strcmp n (fun k => s1 (k + 1)) (fun k => s2 (k + 1))
    else if s1 0 < s2 0 then -1
    else 1

abbrev Image := Int → UInt8

namespace Ptable

def ptableMagic : List UInt8 := [0xde, 0xad, 0xfc, 0xbe]

def bytesAt (t : Image) (offs : Int) (k : Nat) : UInt8 := t (offs + k)

/-- `le32toh` leaves a word as the host reads it. -/
def wordAt (e : Endian) (t : Image) (offs : Int) : BitVec 32 := e.word (bytesAt t offs)

def ptableCrc32 (t : Image) (offs : Int) (len : Nat) : BitVec 32 :=
  ~~~(crc32 ((List.range len).map (bytesAt t offs)) 0xffffffff)

def count (e : Endian) (t : Image) : BitVec 32 := wordAt e t 0
def version (t : Image) : UInt8 := t 4
def crc (e : Endian) (t : Image) : BitVec 32 := wordAt e t 24

def partAt (i : Nat) : Int := 28 + 32 * i

def partName (t : Image) (i : Nat) : Nat → UInt8 := bytesAt t (partAt i)
def partOffset (e : Endian) (t : Image) (i : Nat) : BitVec 32 := wordAt e t (partAt i + 8)
def partSize (e : Endian) (t : Image) (i : Nat) : BitVec 32 := wordAt e t (partAt i + 12)
def partCrc (e : Endian) (t : Image) (i : Nat) : BitVec 32 := wordAt e t (partAt i + 28)

/-- Computed in 32 bits. -/
def ptableSize (count : BitVec 32) : BitVec 32 := 28 + count * 32 + 4

/-- How many characters of a name are letters or digits. -/
def alnumPrefix (name : Nat → UInt8) : Nat :=
  ((List.range 8).takeWhile (fun i => isalnum (name i))).length

def nameVerify (name : Nat → UInt8) : Bool :=
  let i := alnumPrefix name
  !(i = 0 || i ≥ 8 || name i ≠ 0)

/-- The comparison with an earlier record: no common byte, and another name. -/
def partCompare (e : Endian) (t : Image) (part p : Nat) : Bool :=
  let offset := partOffset e t part
  let size := partSize e t part
  !(offset ≤ partOffset e t p + partSize e t p - 1 && offset + size - 1 ≥ partOffset e t p) &&
    strcmp 8 (partName t part) (partName t p) ≠ 0

def partVerify (e : Endian) (t : Image) (part : Nat) (memsz blksz : BitVec 32) (crcCheck : Bool) :
    Bool :=
  let size := partSize e t part
  let offset := partOffset e t part
  if crcCheck && partCrc e t part ≠ ptableCrc32 t (partAt part) 28 then false
  else if size = 0 then false
  else if size % blksz ≠ 0 then false
  else if offset % blksz ≠ 0 then false
  else if offset + size > memsz then false
  else if offset + size < offset then false
  else nameVerify (partName t part) && (List.range part).all (partCompare e t part)

def verify (e : Endian) (t : Image) (memsz blksz : BitVec 32) : Bool :=
  let crcCheck := !(version t = 0 || version t = 1 || version t = 0xff)
  let size := ptableSize (count e t)
  if crcCheck && crc e t ≠ ptableCrc32 t 0 24 then false
  else if size > blksz then false
  else if (List.range 4).map (bytesAt t ((size.toNat : Int) - 4)) ≠ ptableMagic then false
  else (List.range (count e t).toNat).all fun i => partVerify e t i memsz blksz crcCheck

/-- `ptable_deserialize`: the conversions after the check are the identity. -/
def deserialize (e : Endian) (ptable : Option Image) (memsz blksz : BitVec 32) : Int :=
  match ptable with
  | none => -1
  | some t => if verify e t memsz blksz then 0 else -1

abbrev PTABLE_VERSION : UInt8 := 2

def setBytes (t : Image) (offs : Int) (bytes : List UInt8) : Image := fun a =>
  if offs ≤ a then bytes.getD (a - offs).toNat (t a) else t a

def setWord (e : Endian) (t : Image) (offs : Int) (w : BitVec 32) : Image :=
  setBytes t offs ((List.range 4).map (e.byte w))

/-- The table with its version and its checksums stored. -/
def storeCrcs (e : Endian) (t : Image) : Image :=
  let t := setBytes t 4 [PTABLE_VERSION]
  let t := setWord e t 24 (ptableCrc32 t 0 24)
  (List.range (count e t).toNat).foldl
    (fun t i => setWord e t (partAt i + 28) (ptableCrc32 t (partAt i) 28)) t

/-- The magic bytes are stored last. -/
def sealed (e : Endian) (t : Image) : Image :=
  let t := storeCrcs e t
  setBytes t (((ptableSize (count e t)).toNat : Int) - 4) ptableMagic

/-- `ptable_serialize`: the table it leaves, and the result. The conversions after
the check are the identity. -/
def serialize (e : Endian) (ptable : Option Image) (memsz blksz : BitVec 32) :
    Option Image × Int :=
  match ptable with
  | none => (none, -1)
  | some t => (some (sealed e t), if verify e (sealed e t) memsz blksz then 0 else -1)

end Ptable

end Plo.Lib
