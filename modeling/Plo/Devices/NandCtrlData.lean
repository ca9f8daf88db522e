import Plo.Devices.NandCtrl

/-!
The data and meta interfaces over the NANDFCTRL2. A call goes from block to block and
passes over the bad ones; `data_write` and `data_erase` mark a block in which the flash
reports a failure. A run is calls, bits that flip, and the power going off and on.
-/
namespace Plo.Devices.NandCtrl

section
variable {nand : Info} (ecc : Ecc nand) (f : Faults)

/-- The inner loop of `data_read`, with the number of pages left in the block: the bytes
read and the error, if there is one. -/
def readPages (block : Nat) :
    Nat → Nat → Nat → Nat → Die → Die × List UInt8 × Option Int
  | 0, _, _, _, die => (die, [], none)
  | n + 1, page, poffs, len, die =>
    if len = 0 then (die, [], none)
    else
      let size := min len (nand.writesz - poffs)
      let r := pageRead ecc f die (block * nand.pagesPerBlock + page)
      match r.2 with
      | .error err => (r.1, [], some err)
      | .ok rawBuffer =>
        let q := readPages block n (page + 1) 0 (len - size) r.1
        (q.1, (rawBuffer.drop poffs).take size ++ q.2.1, q.2.2)

/-- The outer loop of `data_read`, with the number of blocks left. -/
def readBlocks : Nat → Nat → Nat → Nat → Die → Die × List UInt8 × Option Int
  | 0, _, _, _, die => (die, [], none)
  | n + 1, block, boffs, len, die =>
    if len = 0 then (die, [], none)
    else if isbad die block then readBlocks n (block + 1) boffs len die
    else
      let page := boffs / nand.writesz
      let r := readPages ecc f block (nand.pagesPerBlock - page) page (boffs % nand.writesz) len die
      if r.2.2.isSome then r
      else
        let q := readBlocks n (block + 1) 0 (len - r.2.1.length) r.1
        (q.1, r.2.1 ++ q.2.1, q.2.2)

/-- The device, the bytes put in the buffer and the result. A timeout resets the flash. -/
def dataRead (offs len : Nat) (die : Die) : Die × List UInt8 × Int :=
  if nand.size ≤ offs then (die, [], - EINVAL)
  else
    let len := min len (nand.size - offs)
    let block := offs / nand.erasesz
    let r := readBlocks ecc f (nand.nblocks - block) block (offs % nand.erasesz) len die
    match r.2.2 with
    | none => (r.1, r.2.1, r.2.1.length)
    | some err =>
      if err = - ETIME then (tick r.1, r.2.1, err)
      else if 0 < r.2.1.length then (r.1, r.2.1, r.2.1.length)
      else (r.1, r.2.1, err)

/-- What a round of `data_write` programs: full pages as they are, others filled up with
the erased state. -/
def pageBuffer (nand : Info) (poffs : Nat) (data : List UInt8) : List UInt8 :=
  if data.length = nand.writesz ∧ poffs = 0 then data
  else
    List.replicate poffs NAND_ERASED_STATE ++ data ++
      List.replicate (nand.writesz - poffs - data.length) NAND_ERASED_STATE

/-- How the inner loop of `data_write` ends: it goes on to the next block with the rest of
the data and what was written so far, or the call is at its end. -/
inductive Pages
  | next (die : Die) (data : List UInt8) (ret : Nat)
  | ended (die : Die) (result : Int)

def Pages.die : Pages → Die
  | next die _ _ => die
  | ended die _ => die

/-- The inner loop of `data_write`, with the number of pages left in the block. -/
def writePages (block : Nat) : Nat → Nat → Nat → List UInt8 → Nat → Die → Pages
  | 0, _, _, data, ret, die => .next die data ret
  | n + 1, page, poffs, data, ret, die =>
    if data = [] then .next die data ret
    else
      let size := min data.length (nand.writesz - poffs)
      let w := pageWrite ecc f die (block * nand.pagesPerBlock + page)
        (pageBuffer nand poffs (data.take size))
      if w.2 = - ETIME then .ended (tick w.1) w.2
      else if w.2 < 0 then
        let m := markbad ecc f w.1 block
        if m.2 < 0 then .ended m.1 (- EIO)
        else .ended m.1 (if 0 < ret then ret else w.2)
      else writePages block n (page + 1) 0 (data.drop size) (ret + size) w.1

/-- The outer loop of `data_write`, with the number of blocks left. -/
def writeBlocks : Nat → Nat → Nat → List UInt8 → Nat → Die → Die × Int
  | 0, _, _, _, ret, die => (die, ret)
  | n + 1, block, boffs, data, ret, die =>
    if data = [] then (die, ret)
    else if isbad die block then writeBlocks n (block + 1) boffs data ret die
    else
      let page := boffs / nand.writesz
      match writePages ecc f block (nand.pagesPerBlock - page) page (boffs % nand.writesz) data
        ret die with
      | .ended die result => (die, result)
      | .next die data ret => writeBlocks n (block + 1) 0 data ret die

def dataWrite (offs : Nat) (data : List UInt8) (die : Die) : Die × Int :=
  if nand.size ≤ offs then (die, - EINVAL)
  else
    let block := offs / nand.erasesz
    writeBlocks ecc f (nand.nblocks - block) block (offs % nand.erasesz)
      (data.take (nand.size - offs)) 0 die

/-- The loop of `data_erase`, with the number of blocks left; a block that fails does not
count. -/
def eraseBlocks : Nat → Nat → Nat → Nat → Die → Die × Int
  | 0, _, _, ret, die => (die, ret)
  | n + 1, block, len, ret, die =>
    if len ≤ ret then (die, ret)
    else if isbad die block then eraseBlocks n (block + 1) len ret die
    else
      let e := eraseBlock f die nand block
      if e.2 = - ETIME then (tick e.1, e.2)
      else if e.2 < 0 then
        let m := markbad ecc f e.1 block
        if m.2 < 0 then (m.1, - EIO) else eraseBlocks n (block + 1) len ret m.1
      else eraseBlocks n (block + 1) len (ret + nand.erasesz) e.1

def dataErase (offs len : Nat) (die : Die) : Die × Int :=
  if nand.size ≤ offs ∨ offs % nand.erasesz ≠ 0 ∨ len % nand.erasesz ≠ 0 then (die, - EINVAL)
  else
    let block := offs / nand.erasesz
    eraseBlocks ecc f (nand.nblocks - block) block (min len (nand.size - offs)) 0 die

/-- The number of pages of the flash. -/
def Info.npages (nand : Info) : Nat := nand.nblocks * nand.pagesPerBlock

/-- The loop of `meta_write`; nothing when it leaves the flash. `fuel` rounds are left. -/
def metaWriteLoop : Nat → Nat → List UInt8 → Nat → Die → Option (Die × Int)
  | fuel, page, data, ret, die =>
    if data = [] then some (die, ret)
    else if nand.npages ≤ page then none
    else
      match fuel with
      | 0 => none
      | fuel + 1 =>
        if isbad die (nand.block page) then
          metaWriteLoop fuel ((nand.block page + 1) * nand.pagesPerBlock) data ret die
        else
          let piece := data.take nand.spareavail
          let w := flashMetaWrite ecc f die page
            (piece ++ List.replicate (nand.spareavail - piece.length) 0xff)
          if w.2 < 0 then some (w.1, - EIO)
          else metaWriteLoop fuel (page + 1) (data.drop nand.spareavail) (ret + piece.length) w.1

def metaWrite (offs : Nat) (data : List UInt8) (die : Die) : Option (Die × Int) :=
  if nand.size / nand.writesz * nand.spareavail ≤ offs ∨ offs % nand.spareavail ≠ 0 then
    some (die, - EINVAL)
  else metaWriteLoop ecc f nand.npages (offs / nand.spareavail) data 0 die

/-- The calls that change the flash, and `data_read`. -/
inductive Call
  | dataRead (offs len : Nat)
  | dataWrite (offs : Nat) (data : List UInt8)
  | dataErase (offs len : Nat)
  | metaWrite (offs : Nat) (data : List UInt8)

def Call.run (die : Die) : Call → Option Die
  | dataRead offs len => some (NandCtrl.dataRead ecc f offs len die).1
  | dataWrite offs data => some (NandCtrl.dataWrite ecc f offs data die).1
  | dataErase offs len => some (NandCtrl.dataErase ecc f offs len die).1
  | metaWrite offs data => (NandCtrl.metaWrite ecc f offs data die).map Prod.fst

end

end Plo.Devices.NandCtrl
