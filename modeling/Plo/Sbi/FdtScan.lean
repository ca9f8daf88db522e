import Plo.Base.Scan
import Plo.Lib.Strings
import Plo.Sbi.FdtFind

/-!
What the functions of the device tree read of the structure block, whatever it holds. A call goes
from the word at its offset to the bytes of the name there, if there is one, and from these to
the tokens; it goes ahead in its loop over the tokens when the position grows.
-/
namespace Plo.Sbi
open Lib

/-- Where a call is: at its offset, at a byte of a name, or at a token. -/
inductive Phase
  | entry
  | name (p : Nat)
  | token (pos : Nat)
  deriving DecidableEq

/-- Every turn of the loop over the tokens advances the position. -/
def Phase.Ahead : Phase → Phase → Prop
  | .token pos, .token pos' => pos < pos'
  | _, _ => True

section
variable (fdt : Fdt)

/-- The name of a node is read byte by byte, and the tokens behind it start at a word. -/
def fdtNameStep (p : Nat) : Phase :=
  if fdt.mem p = 0 then .token (ceil4 (p + 1)) else .name (p + 1)

/-- What `fdt_nextNode` reads. -/
def fdtNextReads (offset : Int) : Phase → List (Nat × Nat)
  | .entry =>
    if offset < 0 ∨ (fdt.sizeDtStruct.toNat : Int) ≤ offset ∨ offset % 4 ≠ 0 then []
    else [(fdt.dtStruct + offset.toNat, 4)]
  | .name p => [(p, 1)]
  | .token pos =>
    if fdt32ToCpu fdt pos = FDT_PROP then [(pos, 4), (pos + 4, 4)] else [(pos, 4)]

/-- A turn of `fdt_nextNode`, with the depth; its result is what it returns and the depth. -/
def fdtNextStep (offset : Int) : Phase × Int → (Phase × Int) ⊕ (Int × Int)
  | (.entry, depth) =>
    let pos := fdt.dtStruct + offset.toNat
    if offset < 0 ∨ (fdt.sizeDtStruct.toNat : Int) ≤ offset ∨ offset % 4 ≠ 0 then
      .inr (FDT_EBADOFFS, depth)
    else if fdt32ToCpu fdt pos = FDT_BEGIN_NODE then
      .inl (.name (pos + 4), if offset = 0 then depth + 1 else depth)
    else if offset ≠ 0 then .inr (FDT_EBADOFFS, depth)
    else .inl (.token pos, depth)
  | (.name p, depth) => .inl (fdtNameStep fdt p, depth)
  | (.token pos, depth) =>
    let token := fdt32ToCpu fdt pos
    if token = FDT_BEGIN_NODE then .inr ((pos : Int) - fdt.dtStruct, depth + 1)
    else if token = FDT_END_NODE then
      if depth < 0 then .inr (FDT_EBADSTRUCT, depth) else .inl (.token (pos + 4), depth - 1)
    else if token = FDT_END then .inr (FDT_EEND, depth)
    else if token = FDT_PROP then .inl (.token (pos + fdtConsumeProp fdt pos), depth)
    else .inl (.token (pos + 4), depth)

/-- `fdt_nextNode`. -/
def nextNodeScanner (offset : Int) : Scanner (Phase × Int) (Int × Int) where
  reads := fun s => fdtNextReads fdt offset s.1
  step := fdtNextStep fdt offset
  Ahead := fun s s' => s.1.Ahead s'.1

/-- The property at a position has the name that is looked for. -/
def fdtPropNamed (dtStrings : Nat) (name : List UInt8) (pos : Nat) : Bool :=
  let propName := dtStrings + (fdt32ToCpu fdt (pos + 8)).toNat
  strcmp (name.length + 1) (fun k => fdt.mem (propName + k)) (constant name) = 0

/-- What `fdt_getPropertyByName` reads of the block: of a property first the offset of its name,
and its length if it has another one. -/
def fdtGetReads (dtStrings : Nat) (offset : Nat) (name : List UInt8) : Phase → List (Nat × Nat)
  | .entry => [(fdt.dtStruct + offset, 4)]
  | .name p => [(p, 1)]
  | .token pos =>
    if fdt32ToCpu fdt pos = FDT_PROP then
      if fdtPropNamed fdt dtStrings name pos then [(pos, 4), (pos + 8, 4)]
      else [(pos, 4), (pos + 8, 4), (pos + 4, 4)]
    else [(pos, 4)]

/-- A turn of `fdt_getPropertyByName`. -/
def fdtGetStep (dtStrings : Nat) (offset : Nat) (name : List UInt8) : Phase → Phase ⊕ Int
  | .entry =>
    let pos := fdt.dtStruct + offset
    if fdt32ToCpu fdt pos = FDT_BEGIN_NODE then .inl (.name (pos + 4)) else .inl (.token pos)
  | .name p => .inl (fdtNameStep fdt p)
  | .token pos =>
    let token := fdt32ToCpu fdt pos
    if token = FDT_PROP then
      if fdtPropNamed fdt dtStrings name pos then .inr ((pos : Int) - fdt.dtStruct)
      else .inl (.token (pos + fdtConsumeProp fdt pos))
    else if token = FDT_BEGIN_NODE ∨ token = FDT_END_NODE ∨ token = FDT_END then
      .inr FDT_ENOTFOUND
    else .inl (.token (pos + 4))

/-- `fdt_getPropertyByName`. -/
def getPropertyScanner (dtStrings : Nat) (offset : Nat) (name : List UInt8) :
    Scanner Phase Int where
  reads := fdtGetReads fdt dtStrings offset name
  step := fdtGetStep fdt dtStrings offset name
  Ahead := Phase.Ahead

/-- `fdt_getProperty`, of as many turns as there are: an address, or NULL. -/
def fdtGetProperty (turns : Nat) (dtStrings : Nat) (offset : Nat) (name : List UInt8) :
    Option Nat :=
  ((getPropertyScanner fdt dtStrings offset name).run turns .entry).map fun r =>
    if r.2 < 0 then 0 else fdt.dtStruct + r.2.toNat

end

section
variable (fdt : Fdt)

/-- The address behind the structure block. -/
def Fdt.blockEnd : Nat := fdt.dtStruct + fdt.sizeDtStruct.toNat

/-- The token at an address is a property with this length in bytes. -/
def fdtPropLen (pos : Nat) : Nat := (fdt32ToCpu fdt (pos + 4)).toNat

/-- The address of token `i`, from the one at `start` on. -/
def tokenPos (start : Nat) : Nat → Nat
  | 0 => start
  | i + 1 =>
    let pos := tokenPos start i
    if fdt32ToCpu fdt pos = FDT_PROP then pos + fdtConsumeProp fdt pos else pos + 4

def tokenAt (start i : Nat) : BitVec 32 := fdt32ToCpu fdt (tokenPos fdt start i)

/-- How many of the first `i` tokens end a node. -/
def endNodes (start : Nat) : Nat → Nat
  | 0 => 0
  | i + 1 => endNodes start i + if tokenAt fdt start i = FDT_END_NODE then 1 else 0

/-- Token `i` is where `fdt_nextNode` stops that was called at this depth. -/
def NextStops (start : Nat) (depth : Int) (i : Nat) : Prop :=
  tokenAt fdt start i = FDT_BEGIN_NODE ∨ tokenAt fdt start i = FDT_END ∨
    (tokenAt fdt start i = FDT_END_NODE ∧ depth < endNodes fdt start i)

/-- Token `i` is where the search for a property stops. -/
def GetStops (dtStrings : Nat) (name : List UInt8) (start i : Nat) : Prop :=
  tokenAt fdt start i = FDT_BEGIN_NODE ∨ tokenAt fdt start i = FDT_END ∨
    tokenAt fdt start i = FDT_END_NODE ∨
    (tokenAt fdt start i = FDT_PROP ∧ fdtPropNamed fdt dtStrings name (tokenPos fdt start i))

/-- The length of the property wraps around to nothing. -/
def LengthWraps (pos : Nat) : Prop :=
  fdt32ToCpu fdt pos = FDT_PROP ∧ 0xfffffff0 < fdtPropLen fdt pos ∧ fdtPropLen fdt pos ≤ 0xfffffff4

/-- The tokens from `start` to the first at which the function stops lie in the block, as far
as they are read, and no property before it wraps around. -/
def WholeTokens (stops : Nat → Prop) (propRead start : Nat) : Prop :=
  ∃ k, stops k ∧ (∀ i < k, ¬stops i ∧ ¬LengthWraps fdt (tokenPos fdt start i)) ∧
    ∀ i ≤ k, tokenPos fdt start i +
      (if tokenAt fdt start i = FDT_PROP then propRead else 4) ≤ fdt.blockEnd

/-- The tokens behind the word at `pos` start at `start`: behind its name, which ends in the
block, if it is the beginning of a node. -/
def TokensFrom (pos start : Nat) : Prop :=
  if fdt32ToCpu fdt pos = FDT_BEGIN_NODE then
    ∃ n, (∀ i < n, fdt.mem (pos + 4 + i) ≠ 0) ∧ fdt.mem (pos + 4 + n) = 0 ∧
      pos + 4 + n < fdt.blockEnd ∧ start = ceil4 (pos + 4 + n + 1) ∧ fdt.dtStruct ≤ start
  else start = pos

/-- A block that `fdt_nextNode` does not leave when it is called at an offset. -/
def NextReadable (offset depth : Int) : Prop :=
  (offset < 0 ∨ (fdt.sizeDtStruct.toNat : Int) ≤ offset ∨ offset % 4 ≠ 0) ∨
    fdt.dtStruct + offset.toNat + 4 ≤ fdt.blockEnd ∧
      ((offset ≠ 0 ∧ fdt32ToCpu fdt (fdt.dtStruct + offset.toNat) ≠ FDT_BEGIN_NODE) ∨
        ∃ start, TokensFrom fdt (fdt.dtStruct + offset.toNat) start ∧
          WholeTokens fdt (NextStops fdt start
            (if offset = 0 ∧ fdt32ToCpu fdt fdt.dtStruct = FDT_BEGIN_NODE then depth + 1
              else depth)) 8 start)

/-- A block that `fdt_getProperty` does not leave when it is called at an offset. -/
def GetReadable (dtStrings offset : Nat) (name : List UInt8) : Prop :=
  fdt.dtStruct + offset + 4 ≤ fdt.blockEnd ∧
    ∃ start, TokensFrom fdt (fdt.dtStruct + offset) start ∧
      WholeTokens fdt (GetStops fdt dtStrings name start) 12 start

end

end Plo.Sbi
