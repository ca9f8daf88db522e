import Plo.Cmds.App

/-!
The command that loads the kernel. Every program header to load gets an entry of its
size in memory, and the loop that fills it runs over its size in the file. What `phfs`
answers is given with the headers: the fields after a header was read, and the results
of the reads of its segment; the offsets in the file are left to the device.
-/
namespace Plo.Cmds
open Syspage
variable {w : Nat} {σ : Type}

abbrev SIZE_MSG_BUFF : Nat := 0x100

def CMD_EXIT_FAILURE : Int := 1
def CMD_EXIT_SUCCESS : Int := 0

def PHT_LOAD : BitVec 32 := 1
def PHF_X : BitVec 32 := 1

/-- What is used of the header of the file. -/
structure Ehdr (w : Nat) where
  ident : Nat → UInt8
  entry : BitVec w
  phnum : Nat

/-- What is used of a program header; the alignment is as wide as an address. -/
structure Phdr (w : Nat) where
  type : BitVec 32
  flags : BitVec 32
  vaddr : BitVec w
  filesz : BitVec w
  memsz : BitVec w
  align : BitVec w

/-- A turn of the loop over the program headers: the header or the error of its read, and
the results of the reads of the segment. -/
structure Segment (w : Nat) where
  phdr : Except Int (Phdr w)
  reads : List ReadResult

/-- What was loaded so far: the system page, the address of the kernel, the bytes stored
one after the other from the start of each entry, and the result unless it still waits. -/
structure Loading (w : Nat) (σ : Type) where
  syspage : Common w σ
  kernelPAddr : BitVec w
  writes : List (MapEnt w × List UInt8)
  res : Option Int

section
variable (p : Platform w σ) (kernelGetAddress : BitVec w → BitVec w)

/-- The entry for a segment. The alignment goes through an `unsigned int`. -/
def segmentEntry (s : Common w σ) (phdr : Phdr w) : Common w σ × Option (MapEnt w) :=
  entryAdd p s none (kernelGetAddress phdr.vaddr) phdr.memsz (phdr.align.setWidth 32)

/-- The loop over the bytes of a segment makes the turns of `cmd_cp2ent`. -/
def segmentLoad (filesz : BitVec w) (reads : List ReadResult) : List UInt8 × Option Int :=
  cp2ent filesz 0 reads

/-- The loop over the program headers, `n` of which are left. -/
def kernelSegments : Nat → Common w σ → BitVec w → List (Segment w) → Loading w σ
  | 0, s, kernelPAddr, _ => ⟨s, kernelPAddr, [], some CMD_EXIT_SUCCESS⟩
  | _ + 1, s, kernelPAddr, [] => ⟨s, kernelPAddr, [], none⟩
  | n + 1, s, kernelPAddr, seg :: segs =>
    match seg.phdr with
    | .error _ => ⟨s, kernelPAddr, [], some CMD_EXIT_FAILURE⟩
    | .ok phdr =>
      if phdr.type = PHT_LOAD then
        match segmentEntry p kernelGetAddress s phdr with
        | (s, none) => ⟨s, kernelPAddr, [], some CMD_EXIT_FAILURE⟩
        | (s, some entry) =>
          let kernelPAddr := if phdr.flags &&& PHF_X ≠ 0 then entry.start else kernelPAddr
          match segmentLoad phdr.filesz seg.reads with
          | (copied, none) => ⟨s, kernelPAddr, [(entry, copied)], none⟩
          | (copied, some res) =>
            if res < 0 then ⟨s, kernelPAddr, [(entry, copied)], some CMD_EXIT_FAILURE⟩
            else
              let rest := kernelSegments n s kernelPAddr segs
              { rest with writes := (entry, copied) :: rest.writes }
      else kernelSegments n s kernelPAddr segs

/-- What `phfs` answers: to the opening of the file, to the read of its header, and then. -/
structure KernelFile (w : Nat) where
  opened : Except Int Unit
  ehdr : Except Int (Ehdr w)
  segments : List (Segment w)

/-- `cmd_kernel`, and the entry point it sets. -/
def cmdKernel (s : Common w σ) (argc : Nat) (file : KernelFile w) :
    Loading w σ × Option (BitVec w) :=
  let failed : Loading w σ × Option (BitVec w) := (⟨s, -1, [], some CMD_EXIT_FAILURE⟩, none)
  if argc = 1 ∨ argc > 3 then failed
  else
    match file.opened, file.ehdr with
    | .ok _, .ok hdr =>
      if hdr.ident 0 ≠ 0x7f ∨ hdr.ident 1 ≠ 'E'.toUInt8 ∨ hdr.ident 2 ≠ 'L'.toUInt8 ∨
          hdr.ident 3 ≠ 'F'.toUInt8 then failed
      else
        let loaded := kernelSegments p kernelGetAddress hdr.phnum s (-1) file.segments
        (loaded, if loaded.res = some CMD_EXIT_SUCCESS then some (kernelGetAddress hdr.entry)
          else none)
    | _, _ => failed

end

/-- Results of reads at `offs` and then one after the other, each an error or at most as many
bytes as were asked for. -/
def ReadsFit (sz : BitVec w) : BitVec w → List ReadResult → Prop
  | _, [] => True
  | _, .error res :: _ => res < 0
  | offs, .ok buff :: reads =>
    offs < sz → buff.length ≤ min SIZE_MSG_BUFF (sz - offs).toNat ∧
      ReadsFit sz (offs + BitVec.ofNat w buff.length) reads

/-- Every byte stored lies in its entry. -/
def WritesInside (writes : List (MapEnt w × List UInt8)) : Prop :=
  ∀ entry copied, (entry, copied) ∈ writes → ∀ k, k < copied.length →
    entry.start ≤ entry.start + BitVec.ofNat w k ∧ entry.start + BitVec.ofNat w k < entry.end_

end Plo.Cmds
