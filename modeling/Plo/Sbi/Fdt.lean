import Plo.Base.Bytes
import Plo.Base.Word

/-!
The walk over the nodes of a flattened device tree. The structure block is a stream
of tokens; a call starts at a node and goes on to the next one, whichever it is.
The loops are followed for as many rounds as the block has bytes.
-/
namespace Plo.Sbi

def FDT_BEGIN_NODE : BitVec 32 := 1
def FDT_END_NODE : BitVec 32 := 2
def FDT_PROP : BitVec 32 := 3
def FDT_NOP : BitVec 32 := 4
def FDT_END : BitVec 32 := 9

def FDT_EBADOFFS : Int := -1
def FDT_EBADSTRUCT : Int := -2
def FDT_EEND : Int := -3

/-- The memory, with `fdt_common.dt_struct` and the size of the structure block from
the header. -/
structure Fdt where
  mem : Nat → UInt8
  dtStruct : Nat
  sizeDtStruct : BitVec 32

/-- `CEIL` to a multiple of `sizeof(u32)`. -/
def ceil4 (x : Nat) : Nat := (x + 3) &&& (2 ^ 64 - 4)

variable (fdt : Fdt)

/-- The word at an address, in the order of the host. -/
def fdt32ToCpu (pos : Nat) : BitVec 32 := Endian.big.word fun k => fdt.mem (pos + k)

/-- The length of a property: `token`, `len` and `nameoff` stand before its data. -/
def fdtConsumeProp (pos : Nat) : Nat := (12 + ceil4 (fdt32ToCpu fdt (pos + 4)).toNat) % 2 ^ 32

/-- The address behind the end of a string, or `none` if it does not end in time. -/
def fdtSkipName : Nat → Nat → Option Nat
  | 0, _ => none
  | fuel + 1, p => if fdt.mem p = 0 then some (p + 1) else fdtSkipName fuel (p + 1)

/-- The position behind the node's name, and the depth. -/
def fdtTryConsumeNode (pos : Nat) (offset depth : Int) : Option (Nat × Int) :=
  if fdt32ToCpu fdt pos = FDT_BEGIN_NODE then
    (fdtSkipName fdt fdt.sizeDtStruct.toNat (pos + 4)).map fun p =>
      (ceil4 p, if offset = 0 then depth + 1 else depth)
  else some (pos, depth)

/-- The loop of `fdt_nextNode`: its result and the depth. -/
def fdtNextLoop : Nat → Nat → Int → Option (Int × Int)
  | 0, _, _ => none
  | fuel + 1, pos, depth =>
    let token := fdt32ToCpu fdt pos
    if token = FDT_BEGIN_NODE then some ((pos : Int) - fdt.dtStruct, depth + 1)
    else if token = FDT_END_NODE then
      if depth < 0 then some (FDT_EBADSTRUCT, depth) else fdtNextLoop fuel (pos + 4) (depth - 1)
    else if token = FDT_END then some (FDT_EEND, depth)
    else if token = FDT_PROP then fdtNextLoop fuel (pos + fdtConsumeProp fdt pos) depth
    else fdtNextLoop fuel (pos + 4) depth

def fdtNextNode (offset depth : Int) : Option (Int × Int) :=
  -- a negative offset is a large one as a `size_t`
  if offset < 0 ∨ (fdt.sizeDtStruct.toNat : Int) ≤ offset ∨ offset % 4 ≠ 0 then
    some (FDT_EBADOFFS, depth)
  else
    let pos := fdt.dtStruct + offset.toNat
    if offset ≠ 0 ∧ fdt32ToCpu fdt pos ≠ FDT_BEGIN_NODE then some (FDT_EBADOFFS, depth)
    else
      (fdtTryConsumeNode fdt pos offset depth).bind fun r =>
        fdtNextLoop fdt fdt.sizeDtStruct.toNat r.1 r.2

/-- Calls `fdt_nextNode` until it fails, at most `n` times: the offsets and depths it
gave, and the error. -/
def fdtWalk : Nat → Int → Int → Option (List (Int × Int) × Int)
  | 0, _, _ => none
  | n + 1, offset, depth =>
    (fdtNextNode fdt offset depth).bind fun r =>
      if r.1 < 0 then some ([], r.1)
      else (fdtWalk n r.1 r.2).map fun l => (r :: l.1, l.2)

end Plo.Sbi
