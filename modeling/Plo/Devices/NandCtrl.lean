import Mathlib.Logic.Function.Basic
import Plo.Base.Flips
import Plo.Base.Window
import Plo.Lib.Types

/-!
The NAND flash behind the GRLIB NANDFCTRL2: one die with its table of bad blocks, and the
data and meta interfaces over it. A page has its data, the marker of a bad block, the
parity of the data and a tag. The controller and the flash are given by what each chain of
descriptors does: it succeeds, or it fails and leaves anything in the page it programs or
in the block it erases. Lengths and results fit in their types.
-/
namespace Plo.Devices.NandCtrl

def ETIME : Int := 37

def NAND_BBM_SIZE : Nat := 2

def NANDFCTRL2_BBT_MAX_BLOCKS : Nat := 4096

def NAND_ERASED_STATE : UInt8 := 0xff

/-- `nandfctrl2_info_t`, with how `setupFlash` and `fillSpareLayout` fill it and with the
bound that `scanBadBlocks` checks. -/
structure Info where
  size : Nat
  writesz : Nat
  sparesz : Nat
  spareavail : Nat
  erasesz : Nat
  pagesPerBlock : Nat
  eccChunksz : Nat
  eccsz : Nat
  eccCap : Nat
  pagesPerBlock_pos : 0 < pagesPerBlock
  writesz_pos : 0 < writesz
  eccChunksz_dvd : eccChunksz ∣ writesz
  eccsz_dvd : writesz / eccChunksz ∣ eccsz
  sparesz_eq : sparesz = NAND_BBM_SIZE + eccsz + spareavail
  spareavail_pos : 0 < spareavail
  erasesz_eq : erasesz = pagesPerBlock * writesz
  erasesz_dvd : erasesz ∣ size
  blocks_le : size / erasesz ≤ NANDFCTRL2_BBT_MAX_BLOCKS

namespace Info
variable (nand : Info)

def nblocks : Nat := nand.size / nand.erasesz

def nchunks : Nat := nand.writesz / nand.eccChunksz

def chunkEccsz : Nat := nand.eccsz / nand.nchunks

def tagOfs : Nat := nand.writesz + nand.sparesz - nand.spareavail

/-- Where the parity of a chunk is. -/
def eccOffs (i : Nat) : Nat := nand.writesz + NAND_BBM_SIZE + i * nand.chunkEccsz

/-- The block of a page. -/
def block (page : Nat) : Nat := page / nand.pagesPerBlock

end Info

/-- The EDAC unit of the controller: the parity of a chunk, and what it makes of a chunk
and its parity, nothing when it reports an error it cannot correct. An erased chunk has no
valid parity; when few of its bits have flipped, it is never taken for other data. -/
structure Ecc (nand : Info) where
  encode : List UInt8 → List UInt8
  decode : List UInt8 → List UInt8 → Option (List UInt8)
  length_encode : ∀ {data}, data.length = nand.eccChunksz →
    (encode data).length = nand.chunkEccsz
  corrects : ∀ {data chunk parity}, data.length = nand.eccChunksz →
    chunk.length = nand.eccChunksz → parity.length = nand.chunkEccsz →
    distance (data ++ encode data) (chunk ++ parity) ≤ nand.eccCap →
    decode chunk parity = some data
  erased : ∀ {data chunk parity}, chunk.length = nand.eccChunksz →
    parity.length = nand.chunkEccsz →
    distance (List.replicate (nand.eccChunksz + nand.chunkEccsz) NAND_ERASED_STATE)
      (chunk ++ parity) ≤ nand.eccCap →
    decode chunk parity = some data → data = List.replicate nand.eccChunksz NAND_ERASED_STATE

/-- How a chain of descriptors ends: well, in the timeout of the controller, in another
error of it, or with the flash reporting that it failed; and what is left of the pages that
were to be changed. -/
inductive Outcome
  | done
  | timeout (junk : Nat → Nat → UInt8)
  | fatal (junk : Nat → Nat → UInt8)
  | failed (junk : Nat → Nat → UInt8)

namespace Outcome

/-- The result of `dmaRun`. -/
def runErr : Outcome → Int
  | timeout _ => - ETIME
  | fatal _ => - EIO
  | _ => 0

/-- The result of `dmaRunAndCheckStatus`. -/
def statusErr : Outcome → Int
  | timeout _ => - ETIME
  | fatal _ => - EIO
  | failed _ => - EIO
  | done => 0

/-- What a page becomes that would become `page`. -/
def leaves (o : Outcome) (row : Nat) (page : Nat → UInt8) : Nat → UInt8 :=
  match o with
  | done => page
  | timeout junk | fatal junk | failed junk => junk row

end Outcome

/-- How each chain of descriptors ends, by its number. -/
abbrev Faults := Nat → Outcome

/-- The pages of the flash with their spare areas, the table of bad blocks, the number of
chains so far, and how often each block was programmed or erased. -/
structure Die where
  chip : Nat → Nat → UInt8
  bbt : Nat → BitVec 32
  time : Nat
  cycles : Nat → Nat

/-- A piece of a page to be programmed, and whether the controller adds its parity. -/
structure Load where
  col : Nat
  data : List UInt8
  withEcc : Bool

section
variable {nand : Info} (ecc : Ecc nand) (f : Faults) (die : Die)

/-! Chains of descriptors. -/

/-- The page register when a piece is put in. -/
def Load.put (reg : Nat → UInt8) (load : Load) : Nat → UInt8 :=
  let reg := overlay reg load.col load.data
  if load.withEcc then
    overlay reg (nand.eccOffs (load.col / nand.eccChunksz)) (ecc.encode load.data)
  else reg

/-- The page register after all pieces; it starts out erased. -/
def register (loads : List Load) : Nat → UInt8 :=
  loads.foldl (Load.put ecc) fun _ => NAND_ERASED_STATE

/-- Programs a page: bits are only cleared. -/
def programPage (page : Nat) (loads : List Load) : Die × Int :=
  let new := fun col => die.chip page col &&& register ecc loads col
  ({ die with
      chip := Function.update die.chip page ((f die.time).leaves page new)
      time := die.time + 1
      cycles := Function.update die.cycles (nand.block page) (die.cycles (nand.block page) + 1) },
    (f die.time).statusErr)

/-- `nandfctrl2_eraseBlock`. -/
def eraseBlock (nand : Info) (block : Nat) : Die × Int :=
  ({ die with
      chip := fun page =>
        if nand.block page = block then
          (f die.time).leaves page fun _ => NAND_ERASED_STATE
        else die.chip page
      time := die.time + 1
      cycles := Function.update die.cycles block (die.cycles block + 1) },
    (f die.time).statusErr)

/-- A chain that leaves the flash as it is. -/
def tick : Die := { die with time := die.time + 1 }

/-- Reads a page without correction. -/
def rawRead (page : Nat) : Die × Except Int (Nat → UInt8) :=
  (tick die,
    if (f die.time).runErr < 0 then .error (f die.time).runErr else .ok (die.chip page))

/-! Pages. -/

/-- `nandfctrl2_pageWrite`: the data chunk by chunk, and nothing in the tag. -/
def pageWriteLoads (nand : Info) (data : List UInt8) : List Load :=
  (List.range nand.nchunks).map (fun i =>
      ⟨i * nand.eccChunksz, (data.drop (i * nand.eccChunksz)).take nand.eccChunksz, true⟩) ++
    [⟨nand.tagOfs, List.replicate nand.spareavail NAND_ERASED_STATE, false⟩]

def pageWrite (page : Nat) (data : List UInt8) : Die × Int :=
  programPage ecc f die page (pageWriteLoads nand data)

/-- A chunk of a page as it is stored. -/
def dataChunk (nand : Info) (page : Nat → UInt8) (i : Nat) : List UInt8 :=
  slice page (i * nand.eccChunksz) nand.eccChunksz

/-- The parity of a chunk as it is stored. -/
def eccChunk (nand : Info) (page : Nat → UInt8) (i : Nat) : List UInt8 :=
  slice page (nand.eccOffs i) nand.chunkEccsz

/-- What the controller makes of `n` chunks of a page from chunk `i` on; nothing when it
reports an error that it cannot correct. -/
def correctedPage (page : Nat → UInt8) : Nat → Nat → Option (List UInt8)
  | _, 0 => some []
  | i, n + 1 =>
    match ecc.decode (dataChunk nand page i) (eccChunk nand page i) with
    | none => none
    | some data => (correctedPage page (i + 1) n).map (data ++ ·)

def popcount (x : UInt8) : Nat := (List.range 8).countP fun i => x.toBitVec.getLsbD i

def countBitflips (data : List UInt8) : Nat :=
  (data.map fun x => if x ≠ 0xff then 8 - popcount x else 0).sum

/-- The loop of `verifyEccError`: whether none of `n` chunks from chunk `i` on has more
zero bits than the code corrects. -/
def verifyChunks (nand : Info) (page : Nat → UInt8) : Nat → Nat → Bool
  | _, 0 => true
  | i, n + 1 =>
    let flips := countBitflips (dataChunk nand page i) + countBitflips (eccChunk nand page i)
    if flips > nand.eccCap then false else verifyChunks nand page (i + 1) n

def verifyEccError (nand : Info) (page : Nat) : Die × Except Int (List UInt8) :=
  let r := rawRead f die page
  match r.2 with
  | .error err => (r.1, .error err)
  | .ok rawBuf =>
    if verifyChunks nand rawBuf 0 nand.nchunks then
      (r.1, .ok (List.replicate nand.writesz NAND_ERASED_STATE))
    else (r.1, .error (- EIO))

/-- `nandfctrl2_pageRead`. -/
def pageRead (page : Nat) : Die × Except Int (List UInt8) :=
  if (f die.time).runErr < 0 then (tick die, .error (f die.time).runErr)
  else
    match correctedPage ecc (die.chip page) 0 nand.nchunks with
    | some data => (tick die, .ok data)
    | none => verifyEccError f (tick die) nand page

/-- `flashdrv_metaWrite`. -/
def flashMetaWrite (page : Nat) (data : List UInt8) : Die × Int :=
  programPage ecc f die page [⟨nand.tagOfs, data, false⟩]

/-! Bad blocks. -/

/-- `nandfctrl2_isbad`. -/
def isbad (block : Nat) : Bool := (die.bbt (block >>> 5)).getLsbD (block &&& 31)

def badBlockTableSet (block : Nat) : Die :=
  { die with
    bbt := Function.update die.bbt (block >>> 5)
      (die.bbt (block >>> 5) ||| (1#32 <<< (block &&& 31))) }

/-- The first byte of the marker in the first page of a block. -/
def marker (nand : Info) (block : Nat) : UInt8 :=
  die.chip (block * nand.pagesPerBlock) nand.writesz

/-- `nandfctrl2_markbad`. -/
def markbad (block : Nat) : Die × Int :=
  let w := programPage ecc f die (block * nand.pagesPerBlock) [⟨nand.writesz, [0], false⟩]
  if w.2 = 0 then (badBlockTableSet w.1 block, w.2) else w

/-- `isBlockBadPhys`: a block whose marker cannot be read counts as bad. -/
def isBlockBadPhys (nand : Info) (block : Nat) : Die × Bool :=
  let r := rawRead f die (block * nand.pagesPerBlock)
  match r.2 with
  | .error _ => (r.1, true)
  | .ok data => (r.1, data nand.writesz = 0)

/-- `scanBadBlocks`: `n` blocks are left. -/
def scanBadBlocks (nand : Info) : Nat → Nat → Die → Die
  | _, 0, die => die
  | block, n + 1, die =>
    let q := isBlockBadPhys f die nand block
    scanBadBlocks nand (block + 1) n (if q.2 then badBlockTableSet q.1 block else q.1)

/-- The power goes off and on: the table is empty, and `nandfctrl2_init` fills it. -/
def reboot (nand : Info) : Die :=
  scanBadBlocks f nand 0 nand.nblocks { die with bbt := fun _ => 0 }

end

end Plo.Devices.NandCtrl
