import Plo.Cmds.Copy
import Plo.Phfs.AliasRuns

/-!
What the copy command returns. After a copy that succeeded it registers an alias for what
was copied and returns the outcome of that instead: the alias is named after a file of the
command line, there may be none, and the table may be full or hold the name already.
-/
namespace Plo.Cmds
open Phfs Lib
variable {w : Nat}

/-- Both sides were opened, and `cmd_cpphfs2phfs` returned `n ≥ 0`. -/
def CopySucceeds (devices : CopyDevices) (h : Handler) (s : Tables w) (argv : List CString)
    (src dst : Side w) : Prop :=
  (∃ argvID, copyArgs (fun isDst dev file flags =>
      phfsOpen (devices.phoenixdOpen isDst) s dev file flags h) argv = .accepted src dst argvID) ∧
    ∃ n, (cpphfs2phfs (devices.content src.h) (devices.content dst.h) src.offs src.sz dst.offs
      dst.sz devices.turns).res = some n ∧ 0 ≤ n

/-- The file after which the alias is named: that of the destination, or else of the source. -/
def aliasFile (src dst : Side w) : Option CString := if dst.file = none then src.file else dst.file

/-- There is a name, and the table has room for it and does not hold it. -/
def Registrable (s : Tables w) (name : Option CString) : Prop :=
  s.files.length < SIZE_PHFS_ALIASES ∧ ∃ file, name = some file ∧ file ∉ s.fileNames

theorem aliasReg_ok_iff (s : Tables w) (name : Option CString) (addr size : BitVec w) :
    ¬ (aliasReg s name addr size).2 < 0 ↔ Registrable s name := by
  have hneg : (-EINVAL : Int) < 0 := by decide
  cases name with
  | none =>
      refine iff_of_false (not_not.mpr hneg) ?_
      rintro ⟨-, _, h, -⟩
      cases h
  | some name =>
      simp only [aliasReg, getAliasId, ge_iff_le, aliasId_nonneg_iff]
      split
      · rename_i hfull
        refine iff_of_false (not_not.mpr hneg) ?_
        rintro ⟨hroom, -⟩
        omega
      · rename_i hroom
        split
        · rename_i hmem
          refine iff_of_false (not_not.mpr hneg) ?_
          rintro ⟨-, _, ⟨⟩, hnot⟩
          exact hnot hmem
        · rename_i hnot
          exact iff_of_true (show ¬ EOK < 0 by decide) ⟨Nat.lt_of_not_le hroom, name, rfl, hnot⟩

/-- A copy that does not succeed is not reported as one. -/
theorem copySucceeds_of_success {devices : CopyDevices} {h : Handler} {s : Tables w}
    {argv : List CString} (hres : (cmdCopy devices h s argv).2 = some CMD_EXIT_SUCCESS) :
    ∃ src dst, CopySucceeds devices h s argv src dst := by
  simp only [cmdCopy] at hres
  split at hres
  · cases hres
  · cases hres
  · rename_i src dst argvID hargs
    split at hres
    · cases hres
    · rename_i n hn
      split at hres
      · cases hres
      · rename_i hnonneg
        exact ⟨src, dst, ⟨argvID, hargs⟩, n, hn, Int.not_lt.mp hnonneg⟩

/-- One that does is reported as the registration ends. -/
theorem success_iff_registrable {devices : CopyDevices} {h : Handler} {s : Tables w}
    {argv : List CString} {src dst : Side w} (hcopy : CopySucceeds devices h s argv src dst) :
    (cmdCopy devices h s argv).2 = some CMD_EXIT_SUCCESS ↔ Registrable s (aliasFile src dst) := by
  obtain ⟨⟨argvID, hargs⟩, n, hn, hnonneg⟩ := hcopy
  rw [← aliasReg_ok_iff s (aliasFile src dst) dst.offs (BitVec.ofInt w n)]
  simp only [cmdCopy, hargs, hn, if_neg (Int.not_lt.mpr hnonneg), aliasFile, Option.some.injEq]
  generalize (aliasReg s _ dst.offs (BitVec.ofInt w n)).2 = res
  by_cases hneg : res < 0
  · rw [if_pos hneg]
    exact iff_of_false (by decide) (not_not.mpr hneg)
  · rw [if_neg hneg]
    exact iff_of_true rfl hneg

/-- The command reports the outcome of the copy exactly when a copy that succeeds leaves a
name that can be registered. -/
theorem copy_reports_outcome_iff (devices : CopyDevices) (h : Handler) (s : Tables w)
    (argv : List CString) :
    ((cmdCopy devices h s argv).2 = some CMD_EXIT_SUCCESS ↔
        ∃ src dst, CopySucceeds devices h s argv src dst) ↔
      ∀ src dst, CopySucceeds devices h s argv src dst → Registrable s (aliasFile src dst) := by
  constructor
  · intro hreports src dst hcopy
    exact (success_iff_registrable hcopy).1 (hreports.2 ⟨src, dst, hcopy⟩)
  · intro hreg
    refine ⟨copySucceeds_of_success, ?_⟩
    rintro ⟨src, dst, hcopy⟩
    exact (success_iff_registrable hcopy).2 (hreg src dst hcopy)

/-- A device under the name `d`. -/
def rawDevice : Device := ⟨⟨⟨[0x64], by decide⟩, by decide⟩, 0, 0, .raw⟩

/-- `copy d 0 4 d 8 4` copies the four bytes and fails. -/
theorem raw_copy_reported_failed :
    (cmdCopy ⟨fun _ _ _ _ _ => EOK, fun _ _ => 0, [⟨.ok 4, [.ok 4]⟩]⟩ ⟨0, 0⟩
        (⟨[rawDevice], [], by decide, by decide⟩ : Tables 32)
        [⟨[0x63, 0x6f, 0x70, 0x79], by decide⟩, ⟨[0x64], by decide⟩, ⟨[0x30], by decide⟩,
          ⟨[0x34], by decide⟩, ⟨[0x64], by decide⟩, ⟨[0x38], by decide⟩, ⟨[0x34], by decide⟩]).2 =
        some CMD_EXIT_FAILURE ∧
      CopySucceeds ⟨fun _ _ _ _ _ => EOK, fun _ _ => 0, [⟨.ok 4, [.ok 4]⟩]⟩ ⟨0, 0⟩
        (⟨[rawDevice], [], by decide, by decide⟩ : Tables 32)
        [⟨[0x63, 0x6f, 0x70, 0x79], by decide⟩, ⟨[0x64], by decide⟩, ⟨[0x30], by decide⟩,
          ⟨[0x34], by decide⟩, ⟨[0x64], by decide⟩, ⟨[0x38], by decide⟩, ⟨[0x34], by decide⟩]
        ⟨⟨0, -1⟩, 0, 4, none⟩ ⟨⟨0, -1⟩, 8, 4, none⟩ :=
  ⟨rfl, ⟨7, rfl⟩, 4, rfl, by decide⟩

end Plo.Cmds
