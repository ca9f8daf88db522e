import Plo.Base.Word
import Plo.Phfs.Aliases

/-!
Transfers through a handle. A file of a raw device is a range of it under an alias;
what is left of the file behind an offset is computed in unsigned words, so that it is
enormous when the offset lies behind the end.
-/
namespace Plo.Phfs
variable {w : Nat} {β : Type}

/-- What the rest of the tables holds: static memory, cleared. -/
def zeroDevice : Device := ⟨⟨.ofBuffer [], Nat.succ_pos 7⟩, 0, 0, .raw⟩
def zeroFile : File w := ⟨⟨.ofBuffer [], Nat.succ_pos 33⟩, 0, 0⟩

/-- What a transfer is handed on to: the server, or a range of a device. -/
inductive Transfer (w : Nat)
  | remote (fd major minor : BitVec 32) (offs len : BitVec w)
  | device (major minor : BitVec 32) (offs len : BitVec w)
  deriving DecidableEq

/-- What `phfs_read` and `phfs_write` share: the transfer that they make, or an error. -/
def phfsTransfer (s : Tables w) (h : Handler) (offs len : BitVec w) : Except Int (Transfer w) :=
  if h.pd.toNat ≥ SIZE_PHFS_HANDLERS then .error (-EINVAL)
  else
    let pd := s.devices[h.pd.toNat]?.getD zeroDevice
    match pd.prot with
    | .phoenixd => .ok (.remote h.id pd.major pd.minor offs len)
    | .raw =>
      if h.id = -1 then .ok (.device pd.major pd.minor offs len)
      else if h.id.toNat ≥ SIZE_PHFS_ALIASES then .error (-EINVAL)
      else
        let file := s.files[h.id.toNat]?.getD zeroFile
        let rest := file.size - offs
        .ok (.device pd.major pd.minor (file.addr + offs) (if len > rest then rest else len))

/-- `phfs_read` on devices in the state `d`; `transfer` stands for `phoenixd_read` and
`devs_read`. -/
def phfsRead (transfer : β → Transfer w → β × Int × List UInt8) (d : β) (s : Tables w)
    (h : Handler) (offs len : BitVec w) : β × Int × List UInt8 :=
  match phfsTransfer s h offs len with
  | .error res => (d, res, [])
  | .ok t => transfer d t

/-- `phfs_write` of what `buff` holds. -/
def phfsWrite (transfer : β → Transfer w → (Nat → UInt8) → β × Int) (d : β) (s : Tables w)
    (h : Handler) (offs : BitVec w) (buff : Nat → UInt8) (len : BitVec w) : β × Int :=
  match phfsTransfer s h offs len with
  | .error res => (d, res)
  | .ok t => transfer d t buff

/-- Devices that record what is asked of them. -/
def recordRead (answer : Transfer w → Int × List UInt8) (d : List (Transfer w)) (t : Transfer w) :
    List (Transfer w) × Int × List UInt8 :=
  (d ++ [t], answer t)

def recordWrite (answer : Transfer w → Int) (d : List (Transfer w)) (t : Transfer w)
    (_ : Nat → UInt8) : List (Transfer w) × Int :=
  (d ++ [t], answer t)

/-- The bytes of the device that a transfer covers. -/
def Transfer.Touches : Transfer w → Nat → Prop
  | .remote _ _ _ _ _, _ => False
  | .device _ _ offs len, a => offs.toNat ≤ a ∧ a < offs.toNat + len.toNat

/-- A transfer at `offs` of a file keeps to it, and moves nothing from its end on. -/
structure Transfer.StaysInside (t : Transfer w) (file : File w) (offs : BitVec w) : Prop where
  inside : ∀ a, t.Touches a →
    file.addr.toNat ≤ a ∧ a < file.addr.toNat + file.size.toNat
  behind : file.size ≤ offs → ∀ a, ¬ t.Touches a

/-- How many bytes of a file are transferred, as far as they lie inside. -/
theorem toNat_rest {size offs len : BitVec w} :
    (offs.toNat ≤ size.toNat ∧ (if len > size - offs then size - offs else len).toNat =
        min len.toNat (size.toNat - offs.toNat)) ∨
      (size.toNat < offs.toNat ∧ (len.toNat = 0 ↔
        (if len > size - offs then size - offs else len).toNat = 0)) := by
  rcases toNat_sub_cases size offs with ⟨hle, hsub⟩ | ⟨hlt, hsub⟩
  · refine Or.inl ⟨hle, ?_⟩
    split
    · rename_i hmore
      rw [gt_iff_lt, BitVec.lt_def] at hmore
      omega
    · rename_i hless
      rw [gt_iff_lt, BitVec.lt_def] at hless
      omega
  · have hoffs := offs.isLt
    refine Or.inr ⟨hlt, ?_⟩
    split
    · rename_i hmore
      rw [gt_iff_lt, BitVec.lt_def] at hmore
      omega
    · rfl

section File
variable {s : Tables w} {h : Handler} {pd : Device} {file : File w}

theorem phfsTransfer_file (hpd : s.devices[h.pd.toNat]? = some pd) (hraw : pd.prot = .raw)
    (hfile : s.files[h.id.toNat]? = some file) (offs len : BitVec w) :
    phfsTransfer s h offs len = .ok (.device pd.major pd.minor (file.addr + offs)
      (if len > file.size - offs then file.size - offs else len)) := by
  have hpd_lt := (List.getElem?_eq_some_iff.mp hpd).1
  have hid_lt := (List.getElem?_eq_some_iff.mp hfile).1
  have hdevices : s.devices.length ≤ 8 := s.devices_fit
  have hfiles : s.files.length ≤ 32 := s.files_fit
  have hid : h.id ≠ -1 := by
    intro heq
    rw [heq, show (-1 : BitVec 32).toNat = 2 ^ 32 - 1 from rfl] at hid_lt
    omega
  rw [phfsTransfer, if_neg (show ¬h.pd.toNat ≥ 8 by omega)]
  simp only [hpd, Option.getD_some, hraw, hfile]
  rw [if_neg hid, if_neg (show ¬h.id.toNat ≥ 32 by omega)]

theorem device_staysInside_iff (major minor : BitVec 32)
    (hdevice : file.addr.toNat + file.size.toNat ≤ 2 ^ w) (offs len : BitVec w) :
    (Transfer.device major minor (file.addr + offs)
        (if len > file.size - offs then file.size - offs else len)).StaysInside file offs ↔
      offs ≤ file.size ∨ len = 0 := by
  have hlen : len = 0 ↔ len.toNat = 0 :=
    BitVec.toNat_eq.trans (by rw [BitVec.ofNat_eq_ofNat, BitVec.toNat_zero])
  rw [BitVec.le_def, hlen]
  rcases @toNat_rest w file.size offs len with
    ⟨hle, hrest⟩ | ⟨hlt, hzero⟩
  · refine iff_of_true ⟨?_, ?_⟩ (Or.inl hle)
    · rintro a ⟨hlo, hhi⟩
      rw [hrest] at hhi
      rcases toNat_add_cases file.addr offs with ⟨-, hadd⟩ | ⟨-, hadd⟩
      · omega
      · omega
    · rintro hend a ⟨hlo, hhi⟩
      rw [BitVec.le_def] at hend
      omega
  · constructor
    · intro hstays
      right
      by_contra hne
      have hpos := Nat.pos_of_ne_zero fun heq => hne (hzero.mpr heq)
      exact hstays.behind (BitVec.le_def.mpr hlt.le) _ ⟨le_rfl, Nat.lt_add_of_pos_right hpos⟩
    · rintro (hle | hempty)
      · omega
      · have hnone : ∀ a, ¬ (Transfer.device major minor (file.addr + offs)
            (if len > file.size - offs then file.size - offs else len)).Touches a := by
          rintro a ⟨hlo, hhi⟩
          have := hzero.mp hempty
          omega
        exact ⟨fun a ha => absurd ha (hnone a), fun _ => hnone⟩

/-- Reads and writes of a file stay inside it exactly when the offset does, or nothing is
asked for. -/
theorem file_transfers_stay_inside_iff (hpd : s.devices[h.pd.toNat]? = some pd)
    (hraw : pd.prot = .raw) (hfile : s.files[h.id.toNat]? = some file)
    (hdevice : file.addr.toNat + file.size.toNat ≤ 2 ^ w) (offs len : BitVec w)
    (data : Transfer w → Int × List UInt8) (res : Transfer w → Int) (buff : Nat → UInt8) :
    ((∀ t ∈ (phfsRead (recordRead data) [] s h offs len).1, t.StaysInside file offs) ∧
        ∀ t ∈ (phfsWrite (recordWrite res) [] s h offs buff len).1, t.StaysInside file offs) ↔
      offs ≤ file.size ∨ len = 0 := by
  simp only [phfsRead, phfsWrite, phfsTransfer_file hpd hraw hfile, recordRead, recordWrite,
    List.nil_append, List.forall_mem_singleton, and_self]
  exact device_staysInside_iff pd.major pd.minor hdevice offs len

end File

/-- A file of sixteen bytes at 0x1000, and a table with it and its device. -/
def smallFile : File 32 := ⟨⟨⟨[0x66, 0x30], by decide⟩, by decide⟩, 0x1000, 16⟩

def smallTables : Tables 32 :=
  ⟨[⟨⟨⟨[0x64, 0x30], by decide⟩, by decide⟩, 1, 0, .raw⟩], [smallFile], by decide, by decide⟩

theorem file_transfers_stay_inside_iff_tail :
    (∀ t ∈ (phfsRead (recordRead fun _ => (8, [])) [] smallTables ⟨0, 0⟩ 8 100).1,
        t.StaysInside smallFile 8) ∧
      ∀ t ∈ (phfsWrite (recordWrite fun _ => 8) [] smallTables ⟨0, 0⟩ 8 (fun _ => 0) 100).1,
        t.StaysInside smallFile 8 :=
  (file_transfers_stay_inside_iff rfl rfl rfl (by decide) 8 100 (fun _ => (8, [])) (fun _ => 8)
    (fun _ => 0)).mpr (Or.inl (by decide))

/-- An offset behind the end of the file: the device is asked for all of the length. -/
theorem offset_behind_the_file :
    (phfsRead (recordRead fun _ => (4, [])) [] smallTables ⟨0, 0⟩ 0x20 4).1 =
        [.device 1 0 0x1020 4] ∧
      ¬ (Transfer.device 1 0 0x1020 4 : Transfer 32).StaysInside smallFile 0x20 := by
  refine ⟨by decide, fun h => ?_⟩
  exact absurd (h.inside 0x1020 ⟨by decide, by decide⟩).2 (by decide)

end Plo.Phfs
