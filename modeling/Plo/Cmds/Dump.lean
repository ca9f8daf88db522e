import Plo.Cmds.Kernel
import Plo.Cmds.Mem
import Plo.Lib.RegionHex
import Plo.Lib.Strtoul

/-!
The command `dump`. A length that would wrap around the address space is cut down so that
the end is the last address, which is in the middle of the last row.
-/
namespace Plo.Cmds
open Lib Syspage
variable {w : Nat} {σ : Type}

/-- What the arguments ask for, with the length before it is cut down. Memory is dumped when
there is no name of a device. -/
structure DumpArgs (w : Nat) where
  validate : Bool
  devname : Option CString
  start : BitVec w
  length : BitVec w
  deriving DecidableEq

/-- The loop over the options: what they set, and the arguments behind them. -/
def dumpOptions : List CString → Bool → Option CString →
    Option (Bool × Option CString × List CString)
  | [], validate, devname => some (validate, devname, [])
  | arg :: args, validate, devname =>
    if arg.bytes.head? ≠ some '-'.toUInt8 then some (validate, devname, arg :: args)
    else if arg.bytes = "-F".toUTF8.toList then dumpOptions args false devname
    else if arg.bytes = "-r".toUTF8.toList then
      match args with
      | [] => none
      | name :: args => dumpOptions args validate (some name)
    else none

/-- The arguments of `cmd_dump` behind the name of the command, or nothing when they are
wrong. What stands behind the length is not read. -/
def dumpArgs (args : List CString) : Option (DumpArgs w) := do
  let (validate, devname, args) ← dumpOptions args true none
  match args with
  | [] => none
  | addr :: args =>
    let (start, endptr) : BitVec w × List UInt8 := strtoul addr 0
    if endptr ≠ [] then none
    else
      match args with
      | [] => some ⟨validate, devname, start, 0x100⟩
      | size :: _ =>
        let (length, endptr) : BitVec w × List UInt8 := strtoul size 0
        if endptr ≠ [] ∨ length = 0 then none else some ⟨validate, devname, start, length⟩

/-- The length that `cmd_dump` passes on. -/
def dumpLength (start length : BitVec w) : BitVec w :=
  if start + length < start then -1 - start else length

/-- The region that `dump_memory` prints. -/
def dumpRegion (s : Common w σ) (mem : BitVec w → UInt8) (d : DumpArgs w) : Region w :=
  { start := d.start
    end_ := d.start + dumpLength d.start d.length
    validator := if d.validate then some (dumpRegionValidator s) else none
    mem := mem }

/-- A `size_t` as an argument of `lib_printf`. -/
def sizeArg (v : BitVec w) : Arg := if w = 64 then .w64 (v.setWidth 64) else .w32 (v.setWidth 32)

/-- The two lines that `dump_memory` prints first. -/
def dumpHeader (start length : BitVec w) : List UInt8 :=
  printf (w = 64) "\nMemory dump from 0x%x to 0x%x (%zu bytes):\n"
    [.w32 (start.setWidth 32), .w32 ((start + length).setWidth 32), sizeArg length] ++
    List.replicate 79 '-'.toUInt8 ++ "\n".toUTF8.toList

/-- What a call of the command comes to: the exit code of wrong arguments, a dump of a
device, or the text of a dump of memory as its header and its rows. -/
inductive Dumped (w : Nat)
  | failed (code : Int)
  | phfs (devname : CString) (start length : BitVec w)
  | memory (header : List UInt8) (rows : List (Row w))

/-- `cmd_dump`, unless its rows take more turns than the fuel. -/
def cmdDump (fuel : Nat) (s : Common w σ) (mem : BitVec w → UInt8) (args : List CString) :
    Option (Dumped w) :=
  match dumpArgs args with
  | none => some (.failed CMD_EXIT_FAILURE)
  | some d =>
    match d.devname with
    | some devname => some (.phfs devname d.start (dumpLength d.start d.length))
    | none => do
      let rows ← putRegionHex fuel (dumpRegion s mem d) d.start true
      some (.memory (dumpHeader d.start (dumpLength d.start d.length)) rows)

section
variable {s : Common w σ} {mem : BitVec w → UInt8} {d : DumpArgs w} {args : List CString}

/-- The end of the dump: that of the length asked for, or the last address. -/
theorem toNat_dumpEnd (start length : BitVec w) :
    (start + dumpLength start length).toNat =
      if start.toNat + length.toNat < 2 ^ w then start.toNat + length.toNat else 2 ^ w - 1 := by
  have hstart := start.isLt
  have hlength := length.isLt
  rcases toNat_add_cases start length with ⟨hlt, hsum⟩ | ⟨hge, hsum⟩
  · have hfit : ¬start + length < start := by
      rw [BitVec.lt_def, hsum]
      omega
    rw [dumpLength, if_neg hfit, if_pos hlt, hsum]
  · have hwrap : start + length < start := by
      rw [BitVec.lt_def]
      omega
    have hend : start + (-1 - start) = -1 := by rw [BitVec.add_comm, BitVec.sub_add_cancel]
    rw [dumpLength, if_pos hwrap, if_neg (Nat.not_lt.mpr hge), hend]
    exact (congrArg BitVec.toNat BitVec.neg_one_eq_allOnes).trans BitVec.toNat_allOnes

theorem start_le_dumpEnd : d.start ≤ d.start + dumpLength d.start d.length := by
  have hstart := d.start.isLt
  rw [BitVec.le_def, toNat_dumpEnd]
  split <;> omega

/-- The command ends, and shows every byte of the region once and in order, between blanks. -/
def DumpShows (s : Common w σ) (mem : BitVec w → UInt8) (args : List CString) : Prop :=
  ∃ d fuel header rows, dumpArgs args = some d ∧
    cmdDump fuel s mem args = some (.memory header rows) ∧
    (dumpRegion s mem d).Shown (d.start.toNat % 16) rows

theorem dumpShows_iff_rows (hargs : dumpArgs args = some d) (hdev : d.devname = none) :
    DumpShows s mem args ↔ ∃ fuel rows, putRegionHex fuel (dumpRegion s mem d) d.start true =
      some rows ∧ (dumpRegion s mem d).Shown (d.start.toNat % 16) rows := by
  have hrun (fuel : Nat) : cmdDump fuel s mem args =
      (putRegionHex fuel (dumpRegion s mem d) d.start true).map
        (.memory (dumpHeader d.start (dumpLength d.start d.length)) ·) := by
    simp only [cmdDump, hargs, hdev]
    cases putRegionHex fuel (dumpRegion s mem d) d.start true <;> rfl
  constructor
  · rintro ⟨d', fuel, header, rows, hargs', hdump, hshown⟩
    cases hargs.symm.trans hargs'
    rw [hrun, Option.map_eq_some_iff] at hdump
    obtain ⟨rows', hrows, heq⟩ := hdump
    cases heq
    exact ⟨fuel, rows, hrows, hshown⟩
  · rintro ⟨fuel, rows, hrows, hshown⟩
    exact ⟨d, fuel, _, rows, hargs, by rw [hrun, hrows]; rfl, hshown⟩

/-- Rows end unless the last of them takes in the end of the address space. -/
theorem dumpRows_iff (hw : 4 < w) :
    (∃ fuel rows, putRegionHex fuel (dumpRegion s mem d) d.start true = some rows ∧
        (dumpRegion s mem d).Shown (d.start.toNat % 16) rows) ↔
      (d.start + dumpLength d.start d.length).toNat ≤ 2 ^ w - 16 := by
  have hle : d.start.toNat ≤ (d.start + dumpLength d.start d.length).toNat := start_le_dumpEnd
  have hstart := d.start.isLt
  have hpow : 16 ∣ 2 ^ w := Nat.pow_dvd_pow 2 (Nat.le_of_lt hw : 4 ≤ w)
  have hiff := @putRegionHex_iff w (dumpRegion s mem d) d.start hw hle true
  refine hiff.trans ?_
  simp only [dumpRegion, Region.lead, if_true]
  omega

/-- A dump of memory shows what it was asked for exactly when that ends before the last row
of the address space. -/
theorem cmdDump_iff (hw : 4 < w) (hargs : dumpArgs args = some d) (hdev : d.devname = none) :
    DumpShows s mem args ↔ d.start.toNat + d.length.toNat ≤ 2 ^ w - 16 := by
  have hpow : 2 ^ 5 ≤ 2 ^ w := Nat.pow_le_pow_right (by decide) hw
  rw [dumpShows_iff_rows hargs hdev, dumpRows_iff hw, toNat_dumpEnd]
  split <;> omega

end

/-- A system page without maps. -/
def noMaps : Common 32 Unit := { heapTop := 0, size := 0, maps := [], progs := [], hal := () }

theorem cmdDump_iff_first : DumpShows noMaps (fun _ => 0)
      [.ofBuffer "0x1008".toUTF8.toList, .ofBuffer "20".toUTF8.toList] ↔
    (0x1008#32).toNat + (20#32).toNat ≤ 2 ^ 32 - 16 :=
  cmdDump_iff (d := ⟨true, none, 0x1008, 20⟩) (by decide) (by decide +kernel) rfl

/-- Eight bytes below the top of the address space, of the default length. -/
theorem cmdDump_top : ¬DumpShows noMaps (fun _ => 0) [.ofBuffer "0xfffffff8".toUTF8.toList] := by
  have hargs : dumpArgs [.ofBuffer "0xfffffff8".toUTF8.toList] =
      some (⟨true, none, 0xfffffff8, 0x100⟩ : DumpArgs 32) := by decide +kernel
  rw [dumpShows_iff_rows hargs rfl, dumpRows_iff (by decide)]
  decide

end Plo.Cmds
